import ScoutComputer.Bluetooth.PolicyProof
import ScoutComputer.Bluetooth.TallyProof
import ScoutComputer.Data.InsertMatchProof

/-!
# Every transaction is delivered, once and in order

A tablet that keeps to the conversation begins one transaction after another. As long as
no transfer fails, its results are those of the transactions it has begun, from the first
on, and none is left out once the conversation is over.
-/

namespace ScoutComputer

open Interact Endian

/-- A link, and the transactions its tablet has begun. -/
structure Tape (ρ : Type) where
  link : Link ρ
  begun : List Transaction

def Tape.init {ρ : Type} : Tape ρ := ⟨.init, []⟩

def Tape.step {ρ : Type} (A : Addressing ρ) (parse : List Byte → Option Json) (n : Nat)
    (x : Tape ρ) (a : LinkAct) : Option (Tape ρ) :=
  (x.link.step A parse n a).map fun link => ⟨link, x.begun ++ a.begun⟩

open Bluetooth

variable {parse : List Byte → Option Json}

/-! ## The transaction under way -/

/-- The transaction after the first `k` is under way, at both ends. -/
def Doing {ρ : Type} (begun : List Transaction) (trans : TabTransaction ρ) (l : Line) (k : Nat) :
    Prop :=
  Tally begun l (k + 1) ∧ ∃ t s o, begun[k]? = some t ∧ trans.data = some s ∧
    WorkingOn t o s l ∧ Serves t trans s.prog

section
variable {ρ : Type} {begun : List Transaction} {k : Nat} {trans : TabTransaction ρ}

theorem Doing.tablet {A : Addressing ρ} {n : Nat} {l l' : Link ρ} {a : LinkAct}
    (h : Doing begun trans l.line k) (ha : ∀ b, a ≠ .server b)
    (hs : l.step A parse n a = some l') : Doing (begun ++ a.begun) trans l'.line k := by
  obtain ⟨htally, t, s, o, ht, hdata, hw, hserves⟩ := h
  refine ⟨htally.tablet ha hs, t, s, o, ?_, hdata, ?_, hserves⟩
  · rw [List.getElem?_append_left (List.getElem?_eq_some_iff.mp ht).1]
    exact ht
  · exact { hw with
      line := hw.line.tablet (hw.transfer.bounded hw.clean) (Link.step_tablet ha hs).2.2 }

theorem worked_currTrans (s : SharedState ρ) (prog : Job (Option (List Byte) × Bool))
    (e : Event winsock) (t : BtTabObj ρ) : (worked s prog e t).currTrans =
      { t.currTrans with
        data := some { s with prog }
        success := flag.next t.currTrans.success e.1 e.2 } := by
  obtain ⟨c, r⟩ := e
  cases c <;> rfl

/-- The job makes a call, and all goes well. -/
theorem Doing.moves {tablet : BtTabObj ρ} {s : SharedState ρ}
    {prog : Job (Option (List Byte) × Bool)} {e : Event winsock} {bs : List (Byte × Bool)}
    {l l' : Line} (h : Doing begun tablet.currTrans l k) (hs : tablet.currTrans.data = some s)
    (hst : s.started = true) (hp : s.prog.feed e = some prog) (he : Permitted e.1 e.2)
    (hd : disturbs e.1 e.2 = false) (hm : Line.Moves e bs l l') :
    Doing begun (worked s prog e tablet).currTrans l' k := by
  obtain ⟨htally, t, s', o, ht, hdata, hw, hserves⟩ := h
  rw [hs] at hdata
  cases hdata
  have hnext := hw.transfer.feed hp he
  have hclean := next_clean hw.clean hd
  have hflying := hw.line.takes_flying hm fun rest hle => hnext.within hclean hle
  have htally' := htally.served (.call hm)
  rw [hflying, Nat.add_zero] at htally'
  rw [worked_currTrans]
  refine ⟨htally', t, _, o.next e.1 e.2, ht, rfl, ⟨hnext, hclean, ?_, ?_⟩, ?_⟩
  · exact hw.line.moves hm fun rest hle => hnext.within hclean hle
  · exact fun hno => Bool.noConfusion (hst.symm.trans hno)
  · cases t with
    | read code payload hcode hsize =>
        obtain ⟨hwrite, htype, hflag⟩ := hserves
        exact ⟨hwrite, htype, hflag.feed hp trivial⟩
    | write code hcode => exact hserves

/-- A job that was deferred starts. -/
theorem Doing.start {tablet : BtTabObj ρ} {l : Line} (h : Doing begun tablet.currTrans l k) :
    Doing begun (start tablet).currTrans l k := by
  obtain ⟨htally, t, s, o, ht, hdata, hw, hserves⟩ := h
  refine ⟨htally, t, { s with started := true }, o, ht, ?_,
    { hw with fresh := fun hno => Bool.noConfusion hno }, ?_⟩
  · show tablet.currTrans.data.map _ = _
    rw [hdata]
    rfl
  · cases t with
    | read code payload hcode hsize => exact hserves
    | write code hcode => exact hserves

/-- The transfer of a code is that of the transaction it is the code of. -/
theorem serves_serve (t : Transaction) (self : ρ) (launch : Launch) {readWholeFile : Files}
    (tablet : BtTabObj ρ) (hfiles : (localDb readWholeFile).length < 2 ^ 31) :
    ∃ s, (Bluetooth.serve self launch readWholeFile t.code.toInt8 tablet).currTrans.data = some s ∧
      Transfer t s.prog .init ∧
      Serves t (Bluetooth.serve self launch readWholeFile t.code.toInt8 tablet).currTrans
        s.prog := by
  obtain ⟨prog, hprog, htransfer⟩ := transfer_of_jobOf (t := t) hfiles
  obtain ⟨_, _, hview, _, hjob⟩ := viewOf_serve self launch readWholeFile t.code.toInt8 tablet
    .started
  obtain ⟨s, hs, rfl⟩ := hjob prog hprog
  refine ⟨s, (congrArg View.data hview).trans hs, htransfer, ?_⟩
  cases t with
  | read code payload hcode hsize =>
      have hserve : (Bluetooth.serve self launch readWholeFile code.toInt8 tablet).currTrans = _ :=
        initReadyTransaction_of_pos self self launch readWholeFile tablet.serial
          (tablet.codesRead + 1) tablet.currTrans hcode
      have hread : some internalRead = some s.prog := (if_pos hcode).symm.trans hprog
      show Serves _ (Bluetooth.serve self launch readWholeFile code.toInt8 tablet).currTrans _
      rw [hserve, ← Option.some.inj hread]
      exact ⟨rfl, rfl, internalRead_flag true⟩
  | write code hcode =>
      obtain ⟨_, _, heq, _⟩ := initReadyTransaction_write self tablet.serial
        (tablet.codesRead + 1) launch readWholeFile tablet.currTrans hcode
      exact congrArg TabTransaction.writeTransaction heq

end

/-! ## The tally of a tablet in its seat -/

/-- What the log of a tablet holds agrees with what it has begun and what was taken. -/
def Kept {ρ : Type} (begun : List Transaction) (trans : TabTransaction ρ) (l : Line) (k : Nat) :
    Attention → Bool → Prop
  | .away, false => Tally begun l k
  | .away, true => Doing begun trans l k
  | .polling p, false => ∃ o, Spec poll p o (·.fine = true) PollEnd ∧
      Tally begun l (k + o.inp.length)
  | .polling p, true =>
      Spec poll p .init (· = .init) (fun _ r => r = none) ∧ Doing begun trans l k
  | .started, _ => trans.batmanTrans = true ∨ Doing begun trans l k
  | .handling, _ => Doing begun trans l k

def Bluetooth.Seat.Kept {ρ : Type} (begun : List Transaction) (S : Seat ρ) (l : Line) : Prop :=
  ScoutComputer.Kept begun S.tablet.currTrans l (results S.log) S.attention S.tablet.transactionState

section
variable {ρ : Type} {begun : List Transaction}

/-- A step of the tablet. -/
theorem Kept.tablet {trans : TabTransaction ρ} {k : Nat} {A : Addressing ρ} {n : Nat}
    {l l' : Link ρ} {a : LinkAct} {attention : Attention} {transactionState : Bool}
    (h : Kept begun trans l.line k attention transactionState) (ha : ∀ b, a ≠ .server b)
    (hs : l.step A parse n a = some l') :
    Kept (begun ++ a.begun) trans l'.line k attention transactionState := by
  cases attention with
  | away =>
      cases transactionState with
      | false => exact Tally.tablet h ha hs
      | true => exact Doing.tablet h ha hs
  | polling p =>
      cases transactionState with
      | false =>
          obtain ⟨o, hp, htally⟩ := h
          exact ⟨o, hp, htally.tablet ha hs⟩
      | true => exact ⟨h.1, h.2.tablet ha hs⟩
  | started => exact Or.imp_right (Doing.tablet · ha hs) h
  | handling => exact Doing.tablet h ha hs

/-- A code that is no goodbye is one byte. -/
theorem PollEnd.code {o : Poll} {c : TransactionType} (h : PollEnd o (some c))
    (hbye : isGoodbye c ≠ true) : o.spoke = false ∧ ∃ b : Byte, o.inp = [b] ∧ c = b.toInt8 := by
  rcases h with ⟨hno, _⟩ | ⟨c', heq, _, hcode⟩
  · exact absurd hno (by simp)
  · cases heq
    exact hcode.resolve_left hbye

/-- A code that was read is that of the transaction the tablet has begun last. -/
theorem kept_serve {k : Nat} {l : Line} {c : TransactionType} {o o' : Poll}
    {readWholeFile : Files} (hend : PollEnd o (some c)) (htally : Tally begun l (k + o.inp.length))
    (hend' : PollEnd o' (some c)) (hasked : Asked o' l)
    (hfiles : (localDb readWholeFile).length < 2 ^ 31) (self : ρ) (launch : Launch)
    (tablet : BtTabObj ρ) (transactionState : Bool) :
    Kept begun (Bluetooth.serve self launch readWholeFile c tablet).currTrans l k .started
      transactionState := by
  by_cases hbye : isGoodbye c = true
  · obtain ⟨_, _, hview, hbat, _⟩ := viewOf_serve self launch readWholeFile c tablet .started
    exact Or.inl ((congrArg View.batmanTrans hview).trans (hbat hbye))
  · right
    obtain ⟨_, _, hinp, _⟩ := hend.code hbye
    obtain ⟨hspoke, b, hinp', rfl⟩ := hend'.code hbye
    rw [hinp] at htally
    cases hasked with
    | failed h =>
        rw [h] at hspoke
        exact Bool.noConfusion hspoke
    | asking h _ =>
        rw [h] at hinp'
        exact absurd hinp' (by simp)
    | @code t h hline =>
        rw [h] at hinp'
        obtain ⟨rfl, _⟩ := List.cons.inj hinp'
        obtain ⟨s, hs, htransfer, hserves⟩ := serves_serve t self launch tablet hfiles
        exact ⟨htally, t, s, .init, htally.current hline, hs, ⟨htransfer, rfl, hline, fun _ => rfl⟩,
          hserves⟩

/-- A job makes calls only while the main thread leaves the socket alone. -/
theorem Kept.work {tablet : BtTabObj ρ} {s : SharedState ρ}
    {prog : Job (Option (List Byte) × Bool)} {e : Event winsock} {l l' : Line} {k : Nat}
    {attention : Attention}
    (h : Kept begun tablet.currTrans l k attention tablet.transactionState)
    (hact : tablet.transactionState = true ∨ attention = .started ∨ attention = .handling)
    (hwork : Doing begun tablet.currTrans l k →
      Doing begun (worked s prog e tablet).currTrans l' k) :
    Kept begun (worked s prog e tablet).currTrans l' k attention
      (worked s prog e tablet).transactionState := by
  have hstate : (worked s prog e tablet).transactionState = tablet.transactionState := by
    unfold worked
    split <;> rfl
  rw [hstate]
  cases hts : tablet.transactionState with
  | false =>
      rw [hts] at h hact
      cases attention with
      | away => exact absurd hact (by simp)
      | polling p => exact absurd hact (by simp)
      | started =>
          refine Or.imp (fun hbat => ?_) hwork h
          rw [worked_currTrans]
          exact hbat
      | handling => exact hwork h
  | true =>
      rw [hts] at h
      cases attention with
      | away => exact hwork h
      | polling p => exact ⟨h.1, hwork h.2⟩
      | started =>
          refine Or.imp (fun hbat => ?_) hwork h
          rw [worked_currTrans]
          exact hbat
      | handling => exact hwork h

/-- **Preserved by every step** of the computer that is not disturbed, and so is what is told. -/
theorem Bluetooth.Seat.Kept.step {S S' : Seat ρ} {a : Act} {x : Option (Event winsock)}
    {bs : List (Byte × Bool)} {l l' : Line} (h : S.Kept begun l)
    (hsync : Synced (viewOf S.tablet S.attention) l) (hs : SeatStep parse S a x S')
    (hl : Line.Served x bs l l') (hx : Possible x) (ha : Undisturbed a x = true) :
    S'.Kept begun l' ∧ (Told parse begun S.log → Told parse begun S'.log) := by
  have hquiet : ∀ {es : List Effect}, AllSilent es → results (S.log ++ es) = results S.log := by
    intro es hes
    rw [results_append, results_silent hes, Nat.add_zero]
  unfold Bluetooth.Seat.Kept at h ⊢
  cases hs with
  | still hes =>
      cases hl
      refine ⟨?_, fun htold => htold.silent hes⟩
      dsimp only
      rw [hquiet hes]
      exact h
  | ask hatt =>
      cases hl
      refine ⟨?_, id⟩
      rw [hatt] at h
      dsimp only
      cases hts : S.tablet.transactionState with
      | false =>
          rw [hts] at h
          exact ⟨.init, serveTablet_poll, h⟩
      | true =>
          rw [hts] at h
          exact ⟨serveTablet_poll_busy, h⟩
  | @call p p' e es hatt hp hes =>
      cases hl with
      | call hm =>
      have he := hx e rfl
      refine ⟨?_, fun htold => htold.silent hes⟩
      dsimp only
      rw [hquiet hes]
      unfold Synced viewOf at hsync
      rw [hatt] at h hsync
      cases hts : S.tablet.transactionState with
      | false =>
          rw [hts] at h hsync
          obtain ⟨o, hspec, htally⟩ := h
          have hspec' := hspec.feed hp he
          obtain ⟨o', hspec₁, hasked⟩ := hsync
          -- every byte that is taken was sent as a code
          obtain ⟨_, hcodes⟩ := hasked.moves hm (hspec₁.feed hp he).inv_of
          have hcount : codeCount bs = (taken e.1 e.2).length := by
            rw [← hm.took, List.length_map]
            exact List.countP_eq_length.mpr hcodes
          refine ⟨_, hspec', ?_⟩
          show Tally begun l' (results S.log + (o.inp ++ taken e.1 e.2).length)
          rw [List.length_append, ← Nat.add_assoc, ← hcount]
          exact htally.served (.call hm)
      | true =>
          rw [hts] at h
          obtain ⟨hspec, hdoing⟩ := h
          have hspec' := hspec.feed hp he
          have hkeep : poll.next .init e.1 e.2 = .init := hspec'.inv_of
          rw [hkeep] at hspec'
          obtain ⟨rfl, rfl⟩ := hm.of_none (congrArg Poll.inp hkeep) (given_of_poll hkeep)
          exact ⟨hspec', hdoing⟩
  | pass hatt =>
      cases hl
      refine ⟨?_, id⟩
      rw [hatt] at h
      dsimp only
      cases hts : S.tablet.transactionState with
      | false =>
          rw [hts] at h
          obtain ⟨o, hspec, htally⟩ := h
          rcases hspec.post_of with ⟨_, rfl⟩ | ⟨c, hno, _⟩
          · exact htally
          · exact absurd hno (by simp)
      | true =>
          rw [hts] at h
          exact h.2
  | @serve self c launch readWholeFile hatt hts =>
      cases hl
      refine ⟨?_, id⟩
      unfold Synced viewOf at hsync
      rw [hatt, hts] at h hsync
      obtain ⟨o, hspec, htally⟩ := h
      obtain ⟨o', hspec', hasked⟩ := hsync
      exact kept_serve hspec.post_of htally hspec'.post_of hasked (of_decide_eq_true ha) self launch
        S.tablet _
  -- from here on a transaction is under way
  | queue hatt hbat hes =>
      cases hl
      refine ⟨?_, fun htold => htold.silent hes⟩
      rw [hatt] at h
      dsimp only
      rw [hquiet hes]
      exact h.resolve_left fun hb => Bool.noConfusion (hbat.symm.trans hb)
  | ready hatt hbat hes =>
      cases hl
      refine ⟨?_, fun htold => htold.silent hes⟩
      rw [hatt] at h
      dsimp only
      rw [hquiet hes]
      exact h.resolve_left fun hb => Bool.noConfusion (hbat.symm.trans hb)
  | due hatt hbusy hes =>
      cases hl
      refine ⟨?_, fun htold => htold.silent hes⟩
      rw [hatt, hbusy] at h
      dsimp only
      rw [hquiet hes]
      exact h
  | wait hatt hes =>
      cases hl
      refine ⟨?_, fun htold => htold.silent hes⟩
      rw [hatt] at h
      dsimp only
      rw [hquiet hes]
      exact Doing.start h
  | @conclude r launch readWholeFile es es' hatt hr hes hes' =>
      cases hl
      rw [hatt] at h
      obtain ⟨htally, t, s, o, ht, hdata, hw, hserves⟩ : Doing begun S.tablet.currTrans l _ := h
      obtain ⟨hstatements, hname⟩ := hserves.handled hdata hw hr
      refine ⟨?_, fun htold => htold.conclude ht hstatements hname hes hes'⟩
      dsimp only
      rw [results_conclude _ r hes hes']
      exact htally
  | @work i s prog e es hdata hst hp hact hes =>
      cases hl with
      | call hm =>
      refine ⟨?_, fun htold => htold.silent hes⟩
      dsimp only
      rw [hquiet hes]
      exact Kept.work h hact fun hdoing =>
        hdoing.moves hdata hst hp (hx e rfl) (Bool.not_eq_true' _ |>.mp ha) hm

end

/-! ## Runs -/

section
variable {ρ : Type} {w : Bluetooth ρ} {n : Nat} {S S' : Seat ρ}

theorem Bluetooth.Sits.shows (h : Sits w n S) : Shows w n (viewOf S.tablet S.attention) := by
  obtain ⟨i, hi⟩ := List.mem_iff_getElem?.mp h.place
  exact ⟨i, S.tablet, hi, h.serial, by rw [h.attention]⟩

theorem Bluetooth.Sits.unique (hn : w.serials.Nodup) (h : Sits w n S) (h' : Sits w n S') :
    S = S' := by
  obtain ⟨i, hi⟩ := List.mem_iff_getElem?.mp h'.place
  obtain ⟨tablet, attention, log⟩ := S'
  obtain ⟨_, hs, hatt, hlog⟩ := h'
  dsimp only at hatt hlog hi
  rw [hatt, hlog]
  exact h.eq hn hi hs

theorem Bluetooth.exists_sits (h : n ∈ w.serials) : ∃ S, Sits w n S := by
  obtain ⟨t, ht, hs⟩ := List.mem_map.mp h
  exact ⟨⟨t, w.attention n, mine n w.log⟩, ht, hs, rfl, rfl⟩

end

theorem Tape.step_eq_some {ρ : Type} {A : Addressing ρ} {n : Nat} {x x' : Tape ρ} {a : LinkAct}
    (h : x.step A parse n a = some x') :
    x.link.step A parse n a = some x'.link ∧ x'.begun = x.begun ++ a.begun := by
  obtain ⟨link, hlink, rfl⟩ := Option.map_eq_some_iff.mp h
  exact ⟨hlink, rfl⟩

/-- **The invariant of the tape**, until the server crashes. -/
structure Once (n : Nat) (begun : List Transaction) (l : Link (Nat × Nat)) : Prop where
  inStep : InStep n l
  before : l.server.accepted ≤ n → mine n l.server.log = [] ∧ Tally begun l.line 0
  kept : ∀ S, Sits l.server n S → S.Kept begun l.line

theorem once_init (n : Nat) : Once n [] .init where
  inStep := inStep_init n
  before _ := ⟨rfl, tally_init⟩
  kept _ h := absurd h.place List.not_mem_nil

section
variable {n : Nat} {begun : List Transaction} {l l' : Link (Nat × Nat)}

/-- **Preserved by the tablet.** -/
theorem Once.tablet {a : LinkAct} (h : Once n begun l) (ha : ∀ b, a ≠ .server b)
    (hs : l.step slots parse n a = some l') : Once n (begun ++ a.begun) l' := by
  have hserver := (Link.step_tablet ha hs).1
  refine ⟨h.inStep.tablet ha hs, ?_, ?_⟩
  · rw [hserver]
    exact fun hle => ⟨(h.before hle).1, (h.before hle).2.tablet ha hs⟩
  · rw [hserver]
    exact fun S hS => Kept.tablet (h.kept S hS) ha hs

/-- **Preserved by every step** of the computer that meets the condition, and so is what is told. -/
theorem Once.server {a : Act} (h : Once n begun l)
    (hx : Possible (l.server.onSocket slots n a)) (hsafe : slotSafe l.server a = true)
    (hund : Undisturbed a (l.server.onSocket slots n a) = true)
    (hs : l.step slots parse n (.server a) = some l') :
    (l'.server.pc = .crashed ∨ Once n begun l') ∧
      (Told parse begun (mine n l.server.log) → Told parse begun (mine n l'.server.log)) := by
  obtain ⟨hact, bs, hserved, _⟩ := Link.step_server hs
  have htable := h.inStep.table
  have hstep := htable.tableStep hact
  have hgrows : l.server.accepted ≤ l'.server.accepted :=
    (htable.absent hstep fun hm => Nat.lt_irrefl _ (htable.fresh _ hm)).1
  have hin' := (h.inStep.server hx hsafe hund hs).1
  have hdeed := h.inStep.inv.deed hact
  by_cases hn : n ∈ l.server.serials
  · -- the tablet is in the table
    have hold : ¬ l'.server.accepted ≤ n := by
      have := htable.fresh n hn
      omega
    obtain ⟨S, hS⟩ := exists_sits hn
    rcases h.inStep.inv.seat_deed hS hdeed with ⟨hend, es, hes, hlog⟩ | ⟨S', hS', hseat⟩
    · refine ⟨?_, fun htold => ?_⟩
      · rcases hin' with hcrash | hin'
        · exact Or.inl hcrash
        · exact hend.imp_right fun hgone =>
            ⟨hin', fun hle => absurd hle hold, fun S hS => absurd hS.shows.mem hgone⟩
      · rw [hlog, hS.log]
        exact htold.silent hes
    · obtain ⟨hkept, htold⟩ := (h.kept S hS).step (h.inStep.synced _ hS.shows) hseat hserved hx hund
      rw [hS.log, hS'.log] at htold
      refine ⟨hin'.imp_right fun hin' => ⟨hin', fun hle => absurd hle hold, fun S₁ hS₁ => ?_⟩, htold⟩
      rw [hS₁.unique hin'.inv.serials hS']
      exact hkept
  · rw [onSocket_of_absent hn] at hserved
    have hline : l'.line = l.line := by
      generalize l'.line = line' at hserved
      cases hserved
      rfl
    have hmine := h.inStep.inv.mine_of_absent hn hdeed
    rw [hmine]
    refine ⟨hin'.imp_right fun hin' => ⟨hin', fun hle => ?_, fun S hS => ?_⟩, id⟩
    · rw [hmine, hline]
      exact h.before (Nat.le_trans hgrows hle)
    · -- the tablet has joined just now
      rcases (htable.absent hstep hn).2 with ⟨hno, _⟩ | ⟨hnew, hnewcomer⟩
      · exact absurd hS.shows.mem hno
      · obtain ⟨hnone, htally⟩ := h.before (Nat.le_of_eq hnew.symm)
        have hview := hS.shows.unique hin'.inv.serials hnewcomer
        have hatt : S.attention = .away := congrArg View.attention hview
        have hfree : S.tablet.transactionState = false := congrArg View.transactionState hview
        unfold Bluetooth.Seat.Kept
        rw [hatt, hfree, hS.log, hmine, hnone, hline]
        exact htally

end

/-- A tablet that is in no transaction has no code in flight. -/
theorem AtRest.codeCount_up {l : Line} (h : AtRest l) (hover : Talk.Over l.talk) :
    codeCount l.up = 0 := by
  cases h with
  | silent => rfl
  | complete _ => rfl
  | code _ _ => exact absurd hover not_over_code

/-- A tablet that is free and in no transaction has had a result for all it has begun. -/
theorem Once.settled {n : Nat} {begun : List Transaction} {l : Link (Nat × Nat)}
    (h : Once n begun l) {t : BtTabObj (Nat × Nat)} (hpc : l.server.pc = .idle)
    (ht : t ∈ l.server.connectedTablets) (hs : t.serial = n) (hfree : t.transactionState = false)
    (hover : Talk.Over l.talk) : results (mine n l.server.log) = begun.length := by
  have hS : Sits l.server n ⟨t, l.server.attention n, mine n l.server.log⟩ := ⟨ht, hs, rfl, rfl⟩
  have hatt : l.server.attention n = .away := attention_away (Or.inl hpc)
  have hkept := h.kept _ hS
  have hrest := h.inStep.synced _ hS.shows
  unfold Bluetooth.Seat.Kept at hkept
  unfold Synced viewOf at hrest
  dsimp only at hkept hrest
  rw [hatt, hfree] at hkept hrest
  have hcount : begun.length = results (mine n l.server.log) + codeCount l.up +
      Talk.unsaid l.talk := Tally.count hkept
  have hup : codeCount l.up = 0 := AtRest.codeCount_up hrest hover
  rw [unsaid_of_over hover] at hcount
  omega

/--
**Every transaction is delivered, once and in order**: in every run in which nothing disturbs
a transfer of the tablet and pointers are kept, the results on its account are those of the
transactions it has begun, from the first on; between two passes, when it is free and in no
transaction, of all of them.
-/
theorem once_of_steady (parse : List Byte → Option Json) (n : Nat) (x : Tape (Nat × Nat))
    (h : Steps.Run (Tape.step slots parse n)
      (fun x a => Answered n x.link a ∧ Steady n x.link a) .init x) :
    Told parse x.begun (mine n x.link.server.log) ∧
      (x.link.server.pc = .idle → ∀ t ∈ x.link.server.connectedTablets, t.serial = n →
        t.transactionState = false → Talk.Over x.link.talk →
        results (mine n x.link.server.log) = x.begun.length) := by
  have hinv := Steps.Run.invariant
    (J := fun x => (x.link.server.pc = .crashed ∨ Once n x.begun x.link) ∧
      Told parse x.begun (mine n x.link.server.log)) h ⟨Or.inr (once_init n), told_nil⟩ ?_
  · refine ⟨hinv.2, fun hpc t ht hs hfree hover => ?_⟩
    rcases hinv.1 with hcrash | honce
    · rw [hcrash] at hpc
      exact absurd hpc (by simp)
    · exact honce.settled hpc ht hs hfree hover
  · rintro x x' a ⟨hlive, htold⟩ ⟨hx, hsteady⟩ hs
    obtain ⟨hlink, hbegun⟩ := Tape.step_eq_some hs
    rw [hbegun]
    by_cases ha : ∃ b, a = .server b
    · obtain ⟨b, rfl⟩ := ha
      have hnil : x.begun ++ LinkAct.begun (.server b) = x.begun := List.append_nil _
      rw [hnil]
      rcases hlive with hcrash | honce
      · -- nothing moves after a crash
        obtain ⟨hact, _⟩ := Link.step_server hlink
        rw [act_of_crashed hcrash] at hact
        exact absurd hact (by simp)
      · obtain ⟨hlive', htold'⟩ := honce.server hx hsteady.1 hsteady.2 hlink
        exact ⟨hlive', htold' htold⟩
    · have ha' : ∀ b, a ≠ .server b := fun b hb => ha ⟨b, hb⟩
      have hserver := (Link.step_tablet ha' hlink).1
      refine ⟨hlive.imp (fun hcrash => hserver ▸ hcrash) fun honce => honce.tablet ha' hlink, ?_⟩
      rw [hserver]
      exact htold.begins _

theorem red_length_lt : (bytes "red").length < 2 ^ 31 := by decide

/-- A tablet that says it is called `red`. -/
def saysRed : Transaction := .read 2 (bytes "red") (by decide) red_length_lt

/-- The tablet joins and is given its name. -/
def redNamed : List LinkAct :=
  [.server (joins 10), .begins saysRed, .speaks [2]] ++
  (sendsCode 2 ++ [onward, onward] ++ firstCalls 0).map .server ++
  [.hears 3, .speaks (le32 3)] ++ arrives (le32 3) ++
  [.server (.job 0 ⟨.malloc 3, true⟩), .server (.job 0 ⟨.send ack, .ret 3⟩)] ++
  [.hears 3, .speaks (bytes "red")] ++ arrives (bytes "red") ++
  [onward, onward, onward, onward].map .server

theorem one_toInt8_pos : 0 < (1 : Byte).toInt8 := by decide

theorem note_length_lt : (bytes "note").length < 2 ^ 31 := by decide

/-- A tablet that sends a match. -/
def saysMatch : Transaction := .read 1 (bytes "note") one_toInt8_pos note_length_lt

/-- Once it has its name, the tablet sends a match in the next pass. -/
def redThenMatch : List LinkAct :=
  redNamed ++ [.server (.updateAllBt none 0), .begins saysMatch, .speaks [1]] ++
  (sendsCode 1 ++ [onward, onward] ++ firstCalls 0).map .server ++
  [.hears 3, .speaks (le32 4)] ++ arrives (le32 4) ++
  [.server (.job 0 ⟨.malloc 3, true⟩), .server (.job 0 ⟨.send ack, .ret 3⟩)] ++
  [.hears 3, .speaks (bytes "note")] ++ arrives (bytes "note") ++
  [onward, onward, onward, onward].map .server

/-- Two transactions have their results, and the second submits a statement. -/
theorem once_of_steady_twice : ∃ x : Tape (Nat × Nat),
    Told (fun _ => some (noteDocument "fast").data) x.begun (mine 0 x.link.server.log) ∧
      names (mine 0 x.link.server.log) = [bytes "red"] ∧
      (mine 0 x.link.server.log).filterMap Effect.statements =
        [[], addMatchDatapoints [noteDatapoint "fast"]] ∧
      results (mine 0 x.link.server.log) = x.begun.length := by
  have h : ((Steps.replay (Tape.step slots (fun _ => some (noteDocument "fast").data) 0)
      (fun x a => decide (Answered 0 x.link a ∧ Steady 0 x.link a)) redThenMatch .init).map
        fun x => (x.link.server.pc.atRest,
          x.link.server.connectedTablets.map fun t => (t.serial, t.transactionState),
          decide (Talk.Over x.link.talk ∧ (mine 0 x.link.server.log).filterMap Effect.statements =
            [[], addMatchDatapoints [noteDatapoint "fast"]]),
          names (mine 0 x.link.server.log))) =
      some (true, [(0, false)], true, [bytes "red"]) := by decide +kernel
  obtain ⟨x, hx, hseen⟩ := Option.map_eq_some_iff.mp h
  simp only [Prod.mk.injEq] at hseen
  obtain ⟨hpc, htablets, hdone, hnames⟩ := hseen
  obtain ⟨hover, hstatements⟩ := of_decide_eq_true hdone
  obtain ⟨htold, hsettled⟩ := once_of_steady (fun _ => some (noteDocument "fast").data) 0 x
    (Steps.run_of_replay (fun _ _ hok => of_decide_eq_true hok) .init hx)
  have hmem : (0, false) ∈ x.link.server.connectedTablets.map fun t =>
      (t.serial, t.transactionState) := htablets ▸ List.mem_singleton_self _
  obtain ⟨t, ht, heq⟩ := List.mem_map.mp hmem
  obtain ⟨hs, hfree⟩ := Prod.mk.inj heq
  exact ⟨x, htold, hnames, hstatements,
    hsettled (Pc.atRest_iff.mp hpc) t ht hs hfree hover⟩

end ScoutComputer
