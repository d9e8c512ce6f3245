import ScoutComputer.Bluetooth.SessionProof
import ScoutComputer.Bluetooth.SlotProof

/-!
# From the socket to the database

What reaches the database on account of a tablet, and the name it is given, is what its
own socket has delivered since its last result, size and all.

The log is read as a tally: a job adds what it has taken and given, and a result starts
afresh. So the tally of a session (`Session.Run`) is at every point what the job under way
has taken and given, which its specification knows, and a payload that is complete when the
result comes is the one that was received.
-/

namespace ScoutComputer

open Interact Endian

/-! ## What the log says was received -/

/-- The bytes taken and given since a result was last submitted. -/
def Effect.tally (o : List Byte × List Byte) : Effect → List Byte × List Byte
  | .moved _ _ taken given => (o.1 ++ taken, o.2 ++ given)
  | .submitted _ _ => ([], [])
  | _ => o

/-- What the jobs of one tablet have taken and given since its last result. -/
def sinceSubmitted (log : List Effect) : List Byte × List Byte := log.foldl Effect.tally ([], [])

/-- A size and a payload of that size have come, and two ACKs have gone. -/
def Received (o : List Byte × List Byte) (payload : List Byte) : Prop :=
  ∃ size, o = (size ++ payload, ack ++ ack) ∧ size.length = 4 ∧ ofLe32 size = payload.length

/-- An effect that is what it should be, noted after `pre` on account of the same tablet. -/
def Genuine (parse : List Byte → Option Json) (pre : List Effect) : Effect → Prop
  | .submitted _ statements => statements = [] ∨ ∃ payload, Received (sinceSubmitted pre) payload ∧
      statements = addMatchDatapoints (JsonParser.ofText parse payload).parseMatch
  | .named _ _ name => ∃ pre' n, pre = pre' ++ [.submitted n []] ∧
      Received (sinceSubmitted pre') name
  | _ => True

/-- Every effect of a log was `G` when it was noted. -/
def Noted (G : List Effect → Effect → Prop) (log : List Effect) : Prop :=
  ∀ pre e, pre ++ [e] <+: log → G pre e

variable {G : List Effect → Effect → Prop} {log es : List Effect}

theorem noted_nil : Noted G [] := by
  intro pre e h
  exact absurd (List.prefix_nil.mp h) (by simp)

theorem Noted.concat {e : Effect} (h : Noted G log) (he : G log e) : Noted G (log ++ [e]) := by
  intro pre e' hle
  rcases List.prefix_concat_iff.mp hle with heq | hle
  · obtain ⟨hpre, hlast⟩ := List.append_inj' heq rfl
    cases hpre
    cases hlast
    exact he
  · exact h pre e' hle

/-- Effects that are always as they should be. -/
theorem Noted.append (h : Noted G log) (hes : ∀ e ∈ es, ∀ pre, G pre e) : Noted G (log ++ es) := by
  induction es generalizing log with
  | nil => rwa [List.append_nil]
  | cons e es ih =>
      rw [List.append_cons]
      exact ih (h.concat (hes e List.mem_cons_self log)) fun e' he' =>
        hes e' (List.mem_cons_of_mem e he')

/-- Effects that neither move bytes nor submit a result. -/
def Effect.Idle (e : Effect) : Prop := ∀ o, e.tally o = o

theorem sinceSubmitted_append (log es : List Effect) :
    sinceSubmitted (log ++ es) = es.foldl Effect.tally (sinceSubmitted log) :=
  List.foldl_append ..

theorem sinceSubmitted_idle (log : List Effect) (h : ∀ e ∈ es, e.Idle) :
    sinceSubmitted (log ++ es) = sinceSubmitted log := by
  induction es generalizing log with
  | nil => rw [List.append_nil]
  | cons e es ih =>
      rw [List.append_cons, ih _ fun e' he' => h e' (List.mem_cons_of_mem e he'),
        sinceSubmitted_append]
      exact h e List.mem_cons_self _

theorem sinceSubmitted_submitted (log : List Effect) {n : Nat} {statements : List (List Byte)}
    (h : ∀ e ∈ es, e.Idle) :
    sinceSubmitted (log ++ (.submitted n statements :: es)) = ([], []) := by
  rw [List.append_cons, sinceSubmitted_idle _ h, sinceSubmitted_append]
  rfl

namespace Bluetooth

variable {ρ : Type} {parse : List Byte → Option Json}

/-! ## What is known of the job of a session -/

/-- What a job of a read code has still to do, after the bytes `o` and with the flag at `success`. -/
def Reading (o : List Byte × List Byte) (success : Bool)
    (p : Job (Option (List Byte) × Bool)) : Prop :=
  (∃ v : Wire, (v.inp, v.out) = o ∧ Spec wire p v (fun _ => True) (ReadOutcome .init)) ∧
    Spec flag p success (fun _ => True) fun b r => b = r.2

theorem reading_internalRead : Reading ([], []) true internalRead :=
  ⟨⟨.init, rfl, (internalRead_spec .init).mono (fun _ _ => trivial) fun _ _ _ h => h⟩,
    internalRead_flag true⟩

/-- Once the job has returned, a vector is there with the flag up only if it was received. -/
theorem Reading.received {o : List Byte × List Byte} {v : Option (List Byte)} {ok : Bool}
    (h : Reading o true (.ret (v, ok))) : ∃ payload, v = some payload ∧ Received o payload := by
  obtain ⟨⟨wire, rfl, hspec⟩, hflag⟩ := h
  have hok : true = ok := hflag.post_of
  subst hok
  cases hspec.post_of with
  | @done size payload hm hlen hsize =>
      refine ⟨payload, rfl, size, ?_, hlen, hsize⟩
      rw [hm.inp, hm.out]
      rfl

/-- The last code, the future it was given and the bytes its job has moved belong together. -/
structure Session.Inv (parse : List Byte → Option Json) (S : Session ρ) : Prop where
  genuine : Noted (Genuine parse) S.log
  rest : S.attended = false → sinceSubmitted S.log = ([], [])
  old : ∀ s, S.tablet.currTrans.data = some s → s.forCode ≤ S.tablet.codesRead
  current : S.attended = true → (S.tablet.currTrans.data.map (·.forCode) =
    some S.tablet.codesRead ↔ startsJob S.tablet.currTrans.transactionType = true)
  reading : S.attended = true → 0 < S.tablet.currTrans.transactionType → ∀ s,
    S.tablet.currTrans.data = some s → s.forCode = S.tablet.codesRead →
      Reading (sinceSubmitted S.log) S.tablet.currTrans.success s.prog

theorem idle_asked {t : BtTabObj ρ} {e : Effect} (he : e ∈ asked t) : e.Idle := by
  unfold asked at he
  split at he
  · rw [List.mem_singleton.mp he]
    exact fun _ => rfl
  · exact absurd he List.not_mem_nil

theorem genuine_asked {t : BtTabObj ρ} {e : Effect} (he : e ∈ asked t) (pre : List Effect) :
    Genuine parse pre e := by
  unfold asked at he
  split at he
  · rw [List.mem_singleton.mp he]
    trivial
  · exact absurd he List.not_mem_nil

/-- Something idle is noted, and nothing that matters to the job changes. -/
theorem Session.Inv.idle {a : Bool} {t t' : BtTabObj ρ} {log es : List Effect}
    (h : Session.Inv parse ⟨a, t, log⟩) (hes : ∀ e ∈ es, e.Idle ∧ ∀ pre, Genuine parse pre e)
    (hcodes : t'.codesRead = t.codesRead) (htype :
      t'.currTrans.transactionType = t.currTrans.transactionType)
    (hsuccess : t'.currTrans.success = t.currTrans.success)
    (hdata : ∀ s', t'.currTrans.data = some s' → ∃ s, t.currTrans.data = some s ∧
      s'.prog = s.prog ∧ s'.forCode = s.forCode)
    (hfor : t'.currTrans.data.map (·.forCode) = t.currTrans.data.map (·.forCode)) :
    Session.Inv parse ⟨a, t', log ++ es⟩ := by
  have hsince := sinceSubmitted_idle log fun e he => (hes e he).1
  refine ⟨h.genuine.append fun e he => (hes e he).2, fun ha => hsince.trans (h.rest ha), ?_, ?_, ?_⟩
  · intro s' hs'
    obtain ⟨s, hs, _, hf⟩ := hdata s' hs'
    show s'.forCode ≤ t'.codesRead
    rw [hf, hcodes]
    exact h.old s hs
  · intro ha
    show t'.currTrans.data.map (·.forCode) = some t'.codesRead ↔
      startsJob t'.currTrans.transactionType = true
    rw [hfor, hcodes, htype]
    exact h.current ha
  · intro ha hpos s' hs' hf'
    obtain ⟨s, hs, hp, hf⟩ := hdata s' hs'
    show Reading (sinceSubmitted (log ++ es)) t'.currTrans.success s'.prog
    rw [hsince, hsuccess, hp]
    exact h.reading ha (htype ▸ hpos) s hs (hf ▸ hf'.trans hcodes)

/-- A code is served, and with it the transfer starts afresh. -/
theorem Session.Inv.serve {t : BtTabObj ρ} {log : List Effect}
    (h : Session.Inv parse ⟨false, t, log⟩) (self : ρ) (launch : Launch) (readWholeFile : Files)
    (c : TransactionType) :
    Session.Inv parse ⟨true, Bluetooth.serve self launch readWholeFile c t, log⟩ := by
  have hrest := h.rest rfl
  by_cases hpos : 0 < c
  · have hserve : (Bluetooth.serve self launch readWholeFile c t).currTrans = _ :=
      initReadyTransaction_of_pos self self launch readWholeFile t.serial (t.codesRead + 1)
        t.currTrans hpos
    refine ⟨h.genuine, fun ha => Bool.noConfusion ha, fun s hs => ?_, fun _ => ?_,
      fun _ _ s hs _ => ?_⟩
    · rw [hserve] at hs
      cases hs
      exact Nat.le_refl _
    · rw [hserve]
      exact iff_of_true rfl (by simp [startsJob, hpos])
    · show Reading (sinceSubmitted log) _ _
      rw [hserve] at hs ⊢
      cases hs
      rw [hrest]
      exact reading_internalRead
  · obtain ⟨data, batmanTrans, success, writeTransaction, heq, hdata⟩ := initReadyTransaction_read
      self launch readWholeFile t.serial (t.codesRead + 1) c t.currTrans
    have hserve : (Bluetooth.serve self launch readWholeFile c t).currTrans =
        ⟨some self, c, data, batmanTrans, success, writeTransaction⟩ := heq
    refine ⟨h.genuine, fun ha => Bool.noConfusion ha, fun s hs => ?_, fun _ => ?_,
      fun _ hpos' s hs _ => ?_⟩
    · rw [hserve] at hs
      rcases hdata with ⟨_, prog, rfl⟩ | ⟨_, rfl⟩
      · cases hs
        exact Nat.le_refl _
      · exact Nat.le_succ_of_le (h.old s hs)
    · rw [hserve]
      show data.map (·.forCode) = some (t.codesRead + 1) ↔ startsJob c = true
      rcases hdata with ⟨hstart, prog, rfl⟩ | ⟨hstart, rfl⟩
      · exact iff_of_true rfl hstart
      · refine iff_of_false (fun hc => ?_) (by rw [hstart]; exact Bool.false_ne_true)
        obtain ⟨s, hs, hcode⟩ := Option.map_eq_some_iff.mp hc
        have hle : s.forCode ≤ t.codesRead := h.old s hs
        omega
    · rw [hserve] at hpos'
      exact absurd hpos' hpos

/-- A call of the job is answered. -/
theorem Session.Inv.work {t : BtTabObj ρ} {log : List Effect} {s : SharedState ρ}
    {prog : Job (Option (List Byte) × Bool)} {e : Event winsock}
    (h : Session.Inv parse ⟨true, t, log⟩) (hperm : Permitted e.1 e.2)
    (hs : t.currTrans.data = some s) (hp : s.prog.feed e = some prog) :
    Session.Inv parse ⟨true, worked s prog e t, log ++ [jobEffect t.serial e]⟩ := by
  have hcodes : (worked s prog e t).codesRead = t.codesRead := by
    unfold worked
    split <;> rfl
  have htype : (worked s prog e t).currTrans.transactionType = t.currTrans.transactionType := by
    unfold worked
    split <;> rfl
  have hdata : (worked s prog e t).currTrans.data = some { s with prog } := by
    unfold worked
    split <;> rfl
  have hgenuine : Genuine parse log (jobEffect t.serial e) := by
    unfold jobEffect
    split <;> trivial
  refine ⟨h.genuine.concat hgenuine, fun ha => Bool.noConfusion ha, fun s' hs' => ?_, fun _ => ?_,
    fun _ hpos s' hs' hf => ?_⟩
  · rw [hdata] at hs'
    cases hs'
    show s.forCode ≤ (worked s prog e t).codesRead
    rw [hcodes]
    exact h.old s hs
  · have hcur := h.current rfl
    rw [hs] at hcur
    show (worked s prog e t).currTrans.data.map (·.forCode) = some (worked s prog e t).codesRead ↔ _
    rw [hdata, hcodes, htype]
    exact hcur
  · rw [hdata] at hs'
    cases hs'
    obtain ⟨⟨v, hv, hspec⟩, hflag⟩ := h.reading rfl (htype ▸ hpos) s hs (hf.trans hcodes)
    have hflag' := hflag.feed hp trivial
    refine ⟨⟨v.next e.1 e.2, ?_, hspec.feed hp hperm⟩, ?_⟩
    · show _ = sinceSubmitted (log ++ [_])
      rw [sinceSubmitted_append, ← hv]
      obtain ⟨c, r⟩ := e
      cases c with
      | setSuccess b => simp [Wire.next, taken, given, jobEffect, Effect.tally]
      | _ => rfl
    · obtain ⟨c, r⟩ := e
      cases c with
      | setSuccess b => exact hflag'
      | _ => exact hflag'

/-- What the result of a transaction can be. -/
theorem handleTransResult_cases {trans : TabTransaction ρ} {r : Handled ρ}
    (h : handleTransResult parse trans = .ok r) :
    r.statements = [] ∧ r.name = none ∨
      trans.needsGet = true ∧ trans.success = true ∧ ∃ v ok, trans.result? = some (v, ok) ∧
        ((∃ payload, v = some payload ∧ r.name = none ∧
            r.statements = addMatchDatapoints (JsonParser.ofText parse payload).parseMatch) ∨
          r.statements = [] ∧ r.name = v) := by
  have hget : ∀ v trans', trans.get = .ok (v, trans') → ∃ ok, trans.result? = some (v, ok) := by
    intro v trans' hg
    unfold TabTransaction.get at hg
    unfold TabTransaction.result?
    split at hg
    · exact absurd hg (by simp)
    · rename_i s hs
      split at hg
      · exact absurd hg (by simp)
      · rename_i res hres
        have hv : res.1 = v := congrArg Prod.fst (Except.ok.inj hg)
        refine ⟨res.2, ?_⟩
        rw [hs, Option.bind_some, hres, ← hv]
  unfold handleTransResult at h
  split at h
  · cases h
    exact Or.inl ⟨rfl, rfl⟩
  · rename_i hwrite
    split at h
    · rename_i htype
      have hneeds : trans.needsGet = true := by simp [TabTransaction.needsGet, hwrite, htype]
      cases hg : trans.get with
      | error fault =>
          rw [hg] at h
          exact absurd h (by simp [bind, Except.bind])
      | ok res =>
          obtain ⟨v, trans'⟩ := res
          rw [hg] at h
          cases v with
          | none => exact absurd h (by simp [bind, Except.bind])
          | some vec =>
              simp only [bind, Except.bind] at h
              split at h
              · rename_i hsuccess
                obtain ⟨ok, hres⟩ := hget _ _ hg
                cases h
                exact Or.inr ⟨hneeds, hsuccess, _, ok, hres, Or.inl ⟨vec, rfl, rfl, rfl⟩⟩
              · cases h
                exact Or.inl ⟨rfl, rfl⟩
    · split at h
      · rename_i hmatch htype
        have hneeds : trans.needsGet = true := by simp [TabTransaction.needsGet, hwrite, htype]
        cases hg : trans.get with
        | error fault =>
            rw [hg] at h
            exact absurd h (by simp [bind, Except.bind])
        | ok res =>
            obtain ⟨v, trans'⟩ := res
            rw [hg] at h
            obtain ⟨ok, hres⟩ := hget _ _ hg
            cases hsuccess : trans.success with
            | false =>
                simp only [bind, Except.bind, hsuccess] at h
                cases h
                exact Or.inl ⟨rfl, rfl⟩
            | true =>
                simp only [bind, Except.bind, hsuccess] at h
                cases h
                exact Or.inr ⟨hneeds, rfl, v, ok, hres, Or.inr ⟨rfl, rfl⟩⟩
      · cases h
        exact Or.inl ⟨rfl, rfl⟩

/-- A result is submitted, and the tablet is at rest. -/
theorem Session.Inv.conclude {t : BtTabObj ρ} {log es : List Effect} {r : Handled ρ}
    (h : Session.Inv parse ⟨true, t, log⟩) (hr : handleTransResult parse t.currTrans = .ok r)
    (hes : ∀ e ∈ es, e = .released (some t.serial) t.serial) :
    Session.Inv parse ⟨false, setTransactionState false (settle r t),
      log ++ (asked t ++ concluded t r ++ es)⟩ := by
  have hasked : sinceSubmitted (log ++ asked t) = sinceSubmitted log :=
    sinceSubmitted_idle log fun e he => idle_asked he
  have hlog : log ++ (asked t ++ concluded t r ++ es) = log ++ asked t ++
      (.submitted t.serial r.statements ::
        ((r.name.map fun name => Effect.named (some t.serial) t.serial name).toList ++ es)) := by
    simp [concluded]
  rw [hlog]
  -- what the transfer delivered, if its result is used
  have hgot : r.statements = [] ∧ r.name = none ∨ ∃ payload,
      Received (sinceSubmitted log) payload ∧
        (r.name = none ∧
            r.statements = addMatchDatapoints (JsonParser.ofText parse payload).parseMatch ∨
          r.statements = [] ∧ r.name = some payload) := by
    refine (handleTransResult_cases hr).imp_right ?_
    rintro ⟨hneeds, hsuccess, v, ok, hres, huse⟩
    obtain ⟨s, hs, hprog⟩ := Option.bind_eq_some_iff.mp hres
    have hcur := (h.current rfl).mpr (startsJob_of_needsGet hneeds)
    rw [hs] at hcur
    have hpos : 0 < t.currTrans.transactionType := by
      unfold TabTransaction.needsGet at hneeds
      rcases (Bool.or_eq_true _ _).mp ((Bool.and_eq_true _ _).mp hneeds).2 with htype | htype
      · rw [of_decide_eq_true htype]
        decide
      · rw [of_decide_eq_true htype]
        decide
    have hreading := h.reading rfl hpos s hs (Option.some.inj hcur)
    rw [Prog.result?_eq_some.mp hprog] at hreading
    have hflag : t.currTrans.success = true := hsuccess
    obtain ⟨payload, rfl, hreceived⟩ := Reading.received (hflag ▸ hreading)
    refine ⟨payload, hreceived, huse.imp_left ?_⟩
    rintro ⟨payload', hp, hname, hstatements⟩
    cases hp
    exact ⟨hname, hstatements⟩
  have hidle : ∀ e ∈ (r.name.map fun name =>
      Effect.named (some t.serial) t.serial name).toList ++ es, e.Idle := by
    intro e he
    rcases List.mem_append.mp he with he | he
    · obtain ⟨name, _, rfl⟩ := Option.map_eq_some_iff.mp (Option.mem_toList.mp he)
      exact fun _ => rfl
    · rw [hes e he]
      exact fun _ => rfl
  refine ⟨?_, fun _ => sinceSubmitted_submitted _ hidle, ?_, fun ha => Bool.noConfusion ha,
    fun ha => Bool.noConfusion ha⟩
  · -- the statements first, then the name, then the release
    have h₁ : Noted (Genuine parse) (log ++ asked t) :=
      h.genuine.append fun e he pre => genuine_asked he pre
    have h₂ : Noted (Genuine parse) (log ++ asked t ++ [.submitted t.serial r.statements]) := by
      refine h₁.concat ?_
      show _ ∨ ∃ payload, Received (sinceSubmitted (log ++ asked t)) payload ∧ _
      rw [hasked]
      rcases hgot with ⟨hst, _⟩ | ⟨payload, hreceived, ⟨_, hst⟩ | ⟨hst, _⟩⟩
      · exact Or.inl hst
      · exact Or.inr ⟨payload, hreceived, hst⟩
      · exact Or.inl hst
    rw [List.append_cons, ← List.append_assoc]
    refine Noted.append ?_ fun e he pre => by rw [hes e he]; trivial
    cases hname : r.name with
    | none => rwa [Option.map_none, Option.toList_none, List.append_nil]
    | some name =>
        refine h₂.concat ⟨log ++ asked t, t.serial, ?_, ?_⟩
        · rcases hgot with ⟨_, hno⟩ | ⟨_, _, ⟨hno, _⟩ | ⟨hst, _⟩⟩
          · rw [hname] at hno
            exact absurd hno (by simp)
          · rw [hname] at hno
            exact absurd hno (by simp)
          · rw [hst]
        · rw [hasked]
          rcases hgot with ⟨_, hno⟩ | ⟨payload, hreceived, ⟨hno, _⟩ | ⟨_, hsome⟩⟩
          · rw [hname] at hno
            exact absurd hno (by simp)
          · rw [hname] at hno
            exact absurd hno (by simp)
          · rw [hname] at hsome
            rw [Option.some.inj hsome]
            exact hreceived
  · intro s hs
    have hs : r.trans.data = some s := hs
    rcases handleTransResult_ok hr with ⟨_, htrans⟩ | ⟨_, htrans⟩
    · rw [htrans] at hs
      exact h.old s hs
    · rw [htrans] at hs
      exact absurd hs (by simp)

/-- **Preserved by every step** of a session whose jobs get possible answers. -/
theorem Session.Inv.step {okCode : TransactionType → Prop} {S S' : Session ρ}
    (h : Session.Inv parse S)
    (hs : Session.Step parse (fun e => Permitted e.1 e.2) okCode S S') : Session.Inv parse S' := by
  have hsame : ∀ {t : BtTabObj ρ} (s' : SharedState ρ), t.currTrans.data = some s' →
      ∃ s, t.currTrans.data = some s ∧ s'.prog = s.prog ∧ s'.forCode = s.forCode :=
    fun s' hs' => ⟨s', hs', rfl, rfl⟩
  have hconsult : ∀ {t : BtTabObj ρ}, ∀ e ∈ [consultation t],
      e.Idle ∧ ∀ pre, Genuine parse pre e := by
    intro t e he
    rw [List.mem_singleton.mp he]
    exact ⟨fun _ => rfl, fun _ => trivial⟩
  cases hs with
  | serve _ _ _ => exact h.serve _ _ _ _
  | consult => exact h.idle hconsult rfl rfl rfl hsame rfl
  | queue _ => exact h.idle hconsult rfl rfl rfl hsame rfl
  | work hperm hs _ hp _ => exact h.work hperm hs hp
  | ask => exact h.idle (fun e he => ⟨idle_asked he, genuine_asked he⟩) rfl rfl rfl hsame rfl
  | @wait t log _ =>
      refine h.idle (fun e he => ⟨idle_asked he, genuine_asked he⟩) rfl rfl rfl ?_ ?_
      · intro s' hs'
        obtain ⟨s, hs, rfl⟩ := Option.map_eq_some_iff.mp hs'
        exact ⟨s, hs, rfl, rfl⟩
      · exact Option.map_map ..
  | conclude hr hes => exact h.conclude hr hes
  | close =>
      refine h.idle (fun e he => ?_) rfl rfl rfl hsame rfl
      rw [List.mem_singleton.mp he]
      exact ⟨fun _ => rfl, fun _ => trivial⟩

theorem Session.Run.inv {okCode : TransactionType → Prop} {S : Session ρ}
    (h : Session.Run parse (fun e => Permitted e.1 e.2) okCode S) : Session.Inv parse S := by
  refine h.invariant (fun _ _ _ => ?_) fun S S' hS hs => hS.step hs
  exact ⟨noted_nil, fun _ => rfl, fun s hs => absurd hs (by simp [BtTabObj.ofSocket,
    TabTransaction.init]), fun ha => Bool.noConfusion ha, fun ha => Bool.noConfusion ha⟩

/-! ## All tablets -/

/-- A step that is safe for the slots in use, and answers the jobs as Winsock can. -/
def slotAnswered (w : Bluetooth (Nat × Nat)) (a : Act) : Prop :=
  slotSafe w a = true ∧ ∀ i e, a = .job i e → Permitted e.1 e.2

theorem lets_slotAnswered :
    Lets slotAnswered (fun e => Permitted e.1 e.2) fun _ => True where
  call _ i e h := h.2 i e rfl
  code _ _ _ _ _ _ _ := trivial

/--
**What reaches the database was received**: in every run, what is submitted on account of a
tablet is read from a payload, and a name it is given is a payload, that has come with its
size since its last result, against the two ACKs that were due. All the bytes that count for
it went through its own socket, and the name is its own.
-/
theorem genuine_of_slotAnswered (parse : List Byte → Option Json) (w : Bluetooth (Nat × Nat))
    (h : Run slots parse slotAnswered w) (pre : List Effect) (e : Effect)
    (he : pre ++ [e] <+: w.log) :
    (∀ e' ∈ mine e.owner pre, e'.OwnTablet) ∧ e.OwnTablet ∧ Genuine parse (mine e.owner pre) e := by
  obtain ⟨hsound, hsessions⟩ := sessions_run (fun _ _ _ hi hok hw => stepKeeps_slots hi hok.1 hw)
    lets_slotAnswered h
  obtain ⟨post, hpost⟩ := he
  have hown : ∀ e' ∈ pre ++ [e], e'.OwnTablet := by
    intro e' he'
    refine (hsound.log e' ?_).1
    rw [← hpost]
    exact List.mem_append_left post he'
  have hmem : e ∈ w.log := by
    rw [← hpost, List.append_assoc]
    exact List.mem_append_right _ List.mem_cons_self
  obtain ⟨S, hrun, _, hlog, _⟩ := hsessions.each e.owner (hsessions.fresh e hmem)
  refine ⟨fun e' he' => hown e' (List.mem_append_left _ (List.mem_of_mem_filter he')),
    hown e (List.mem_append_right pre List.mem_cons_self),
    hrun.inv.genuine (mine e.owner pre) e ?_⟩
  rw [hlog, ← hpost, mine_append, mine_append, mine_all (l := [e]) fun e' he' => by
    rw [List.mem_singleton.mp he']]
  exact List.prefix_append _ _

/-- A tablet joins, sends its name and is handled in the same pass. -/
def namesItself : List Act :=
  joins 10 :: sendsCode 2 ++ [onward, onward] ++ (readCalls (bytes "red")).map (.job 0) ++
    [onward, onward, onward, onward]

/-- Whether a step is as `slotAnswered` demands. -/
def slotAnswer (w : Bluetooth (Nat × Nat)) (a : Act) : Bool :=
  slotSafe w a && match a with
    | .job _ e => decide (Permitted e.1 e.2)
    | _ => true

theorem slotAnswered_of_slotAnswer {w : Bluetooth (Nat × Nat)} {a : Act}
    (h : slotAnswer w a = true) : slotAnswered w a := by
  obtain ⟨hslot, hcall⟩ := Bool.and_eq_true_iff.mp h
  refine ⟨hslot, ?_⟩
  rintro i e rfl
  exact of_decide_eq_true hcall

/-- The first of two tablets sends a payload, and is handled while the others come and go. -/
def sendsMatch : List Act :=
  twoJoin ++ .updateAllBt none 0 :: sendsCode 1 ++ [onward, onward] ++ passedOver ++
    [onward, onward, onward] ++ (readCalls (bytes "red")).map (.job 0) ++ comesAndGoes ++ [onward]

/-- One datapoint, whatever the payload. -/
def parseDatapoint : List Byte → Option Json := fun _ =>
  some (.object [(bytes "scoutingData", .array [.object
    [(bytes "DCTimestamp", .str (bytes "noShow")), (bytes "DCValue", .str (bytes "fast")),
      (bytes "allianceID", .str (bytes "blue1")), (bytes "datapointID", .str (bytes "12")),
      (bytes "matchID", .str (bytes "3")), (bytes "scouterID", .str (bytes "7")),
      (bytes "teamID", .str (bytes "1138"))]])])

/-- The statement it makes. -/
def datapointStatements : List (List Byte) :=
  addMatchDatapoints (JsonParser.ofText parseDatapoint []).parseMatch

theorem genuine_of_slotAnswered_red : ∃ pre : List Effect, datapointStatements.length = 1 ∧
    (∀ e ∈ mine 0 pre, e.OwnTablet) ∧ (Effect.submitted 0 datapointStatements).OwnTablet ∧
    Genuine parseDatapoint (mine 0 pre) (.submitted 0 datapointStatements) := by
  have h : ((Steps.replay (act slots parseDatapoint) slotAnswer sendsMatch init).map fun w =>
      w.log[23]?) = some (some (.submitted 0 datapointStatements)) := by decide +kernel
  obtain ⟨w, hw, hlog⟩ := Option.map_eq_some_iff.mp h
  have hpre : w.log.take 23 ++ [.submitted 0 datapointStatements] <+: w.log := by
    rw [← Option.toList_some, ← hlog, ← List.take_add_one]
    exact List.take_prefix _ _
  exact ⟨_, by decide +kernel, genuine_of_slotAnswered parseDatapoint w
    (Steps.run_of_replay (fun _ _ => slotAnswered_of_slotAnswer) .init hw) _ _ hpre⟩

end Bluetooth

end ScoutComputer
