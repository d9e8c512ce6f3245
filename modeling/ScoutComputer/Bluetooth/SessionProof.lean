import ScoutComputer.Bluetooth.DeedProof
import ScoutComputer.Bluetooth.SlotProof

/-!
# One tablet's part of a run

While every pointer in use resolves to its own tablet, the tablets have nothing to do
with each other: what a run does to one of them, and all it notes on account of it, is a
run of a session that knows of no other tablet. What holds of every session holds of
every tablet, those that have left included.
-/

namespace ScoutComputer

open Interact Steps

/-- The tablet an effect is on account of. -/
def Effect.owner : Effect → Nat
  | .moved _ owner _ _ => owner
  | .flagged _ owner => owner
  | .named _ owner _ => owner
  | .released _ owner => owner
  | .submitted owner _ => owner
  | .consulted serial _ _ => serial
  | .closed serial => serial

namespace Bluetooth

variable {ρ : Type} {A : Addressing ρ} {w w' : Bluetooth ρ}

/-- What the log holds on account of tablet `n`. -/
def mine (n : Nat) (log : List Effect) : List Effect := log.filter fun e => e.owner = n

/-- Whether there are pointers to the tablet at index `j`. -/
def attended (pc : Pc ρ) (j : Nat) (t : BtTabObj ρ) : Bool :=
  t.transactionState || decide (pc.focus = some j)

/-- A tablet, whether there are pointers to it, and what was noted on its account. -/
structure Session (ρ : Type) where
  attended : Bool
  tablet : BtTabObj ρ
  log : List Effect

namespace Session

/--
What happens to a tablet in its session. Its jobs get answers that meet `okCall`, and it
sends codes that meet `okCode`.
-/
inductive Step (parse : List Byte → Option Json) (okCall : Event winsock → Prop)
    (okCode : TransactionType → Prop) : Session ρ → Session ρ → Prop where
  | serve {self : ρ} {launch : Launch} {readWholeFile : Files} {c : TransactionType}
      {t : BtTabObj ρ} {log : List Effect} : okCode c → t.jobRunning = false →
      t.transactionState = false →
      Step parse okCall okCode ⟨false, t, log⟩
        ⟨true, Bluetooth.serve self launch readWholeFile c t, log⟩
  | consult {t : BtTabObj ρ} {log : List Effect} :
      Step parse okCall okCode ⟨true, t, log⟩ ⟨true, t, log ++ [consultation t]⟩
  | queue {t : BtTabObj ρ} {log : List Effect} : t.currTrans.batmanTrans = false →
      Step parse okCall okCode ⟨true, t, log⟩
        ⟨true, setTransactionState true t, log ++ [consultation t]⟩
  | work {s : SharedState ρ} {prog : Job (Option (List Byte) × Bool)} {e : Event winsock}
      {t : BtTabObj ρ} {log : List Effect} : okCall e → t.currTrans.data = some s →
      s.started = true → s.prog.feed e = some prog → s.forCode = t.codesRead →
      Step parse okCall okCode ⟨true, t, log⟩
        ⟨true, worked s prog e t, log ++ [jobEffect t.serial e]⟩
  | ask {t : BtTabObj ρ} {log : List Effect} :
      Step parse okCall okCode ⟨true, t, log⟩ ⟨true, t, log ++ asked t⟩
  | wait {t : BtTabObj ρ} {log : List Effect} :
      handleTransResult parse t.currTrans = .error .waiting →
      Step parse okCall okCode ⟨true, t, log⟩ ⟨true, start t, log ++ asked t⟩
  | conclude {r : Handled ρ} {t : BtTabObj ρ} {l log : List Effect} :
      handleTransResult parse t.currTrans = .ok r →
      (∀ e ∈ l, e = .released (some t.serial) t.serial) →
      Step parse okCall okCode ⟨true, t, log⟩
        ⟨false, setTransactionState false (settle r t), log ++ (asked t ++ concluded t r ++ l)⟩
  | close {attended : Bool} {t : BtTabObj ρ} {log : List Effect} :
      Step parse okCall okCode ⟨attended, t, log⟩ ⟨attended, t, log ++ [.closed t.serial]⟩

/-- The sessions of a tablet. -/
inductive Run (parse : List Byte → Option Json) (okCall : Event winsock → Prop)
    (okCode : TransactionType → Prop) : Session ρ → Prop where
  | join (serial : Nat) (socket : Socket) (mac : List Byte) :
      Run parse okCall okCode ⟨false, .ofSocket serial socket mac, []⟩
  | step {S S' : Session ρ} : Run parse okCall okCode S → Step parse okCall okCode S S' →
      Run parse okCall okCode S'

variable {parse : List Byte → Option Json} {okCall : Event winsock → Prop}
  {okCode : TransactionType → Prop}

/-- **The invariant rule** of sessions. -/
theorem Run.invariant {J : Session ρ → Prop} {S : Session ρ} (h : Run parse okCall okCode S)
    (h0 : ∀ serial socket mac, J ⟨false, .ofSocket serial socket mac, []⟩)
    (hJ : ∀ S S', J S → Step parse okCall okCode S S' → J S') : J S := by
  induction h with
  | join => exact h0 _ _ _
  | step _ hs ih => exact hJ _ _ ih hs

/-- Closing its socket again and again changes nothing else. -/
theorem Run.closes {a : Bool} {t : BtTabObj ρ} {log l : List Effect}
    (h : Run parse okCall okCode ⟨a, t, log⟩) (hes : ∀ e ∈ l, e = .closed t.serial) :
    Run parse okCall okCode ⟨a, t, log ++ l⟩ := by
  induction l generalizing log with
  | nil => rwa [List.append_nil]
  | cons e l ih =>
      rw [hes e List.mem_cons_self, List.append_cons]
      exact ih (h.step .close) fun e' he' => hes e' (List.mem_cons_of_mem e he')

end Session

/-! ## The log of one tablet -/

theorem mine_append (n : Nat) (log l : List Effect) :
    mine n (log ++ l) = mine n log ++ mine n l := List.filter_append ..

theorem mine_all {n : Nat} {l : List Effect} (h : ∀ e ∈ l, e.owner = n) : mine n l = l :=
  List.filter_eq_self.mpr fun e he => decide_eq_true (h e he)

theorem mine_none {n : Nat} {l : List Effect} (h : ∀ e ∈ l, e.owner ≠ n) : mine n l = [] :=
  List.filter_eq_nil_iff.mpr fun e he hn => h e he (of_decide_eq_true hn)

theorem owner_jobEffect (n : Nat) (e : Event winsock) : (jobEffect n e).owner = n := by
  unfold jobEffect
  split
  · rfl
  · rfl

theorem owner_asked {t : BtTabObj ρ} {e : Effect} (he : e ∈ asked t) : e.owner = t.serial := by
  unfold asked at he
  split at he
  · rw [List.mem_singleton.mp he]
    rfl
  · exact absurd he List.not_mem_nil

theorem owner_concluded {t : BtTabObj ρ} {r : Handled ρ} {e : Effect} (he : e ∈ concluded t r) :
    e.owner = t.serial := by
  rcases List.mem_cons.mp he with rfl | he
  · rfl
  · obtain ⟨name, _, rfl⟩ := Option.map_eq_some_iff.mp (Option.mem_toList.mp he)
    rfl

/-! ## The server is the product of its sessions -/

/--
Every tablet there ever was has its session: what was noted on its account is what the
session has noted, and while it is in the table it is as the session has it.
-/
structure Sessions (parse : List Byte → Option Json) (okCall : Event winsock → Prop)
    (okCode : TransactionType → Prop) (w : Bluetooth ρ) : Prop where
  fresh : ∀ e ∈ w.log, e.owner < w.accepted
  each : ∀ n, n < w.accepted → ∃ S : Session ρ, Session.Run parse okCall okCode S ∧
    S.tablet.serial = n ∧ S.log = mine n w.log ∧
    ∀ j t, w.connectedTablets[j]? = some t → t.serial = n →
      S.tablet = t ∧ (w.pc ≠ .crashed → S.attended = attended w.pc j t)

variable {parse : List Byte → Option Json} {okCall : Event winsock → Prop}
  {okCode : TransactionType → Prop}

theorem sessions_init : Sessions parse okCall okCode (init : Bluetooth ρ) where
  fresh _ he := absurd he List.not_mem_nil
  each _ hn := absurd hn (Nat.not_lt_zero _)

/-- One tablet goes on in its session. -/
theorem Sessions.update (h : Sessions parse okCall okCode w) (hinv : Inv A w) {i : Nat}
    {t : BtTabObj ρ} {f : BtTabObj ρ → BtTabObj ρ} {l : List Effect} {a : Bool}
    (ht : w.connectedTablets[i]? = some t) (hf : KeepsPlace f)
    (htab : w'.connectedTablets = (w.modifyAt i f).connectedTablets)
    (hacc : w'.accepted = w.accepted) (hlog : w'.log = w.log ++ l)
    (hes : ∀ e ∈ l, e.owner = t.serial) (hpc : w.pc ≠ .crashed)
    (hfocus : w'.pc ≠ .crashed → ∀ j, j ≠ i → (w'.pc.focus = some j ↔ w.pc.focus = some j))
    (hself : w'.pc ≠ .crashed → a = attended w'.pc i (f t))
    (hstep : ∀ log, Session.Run parse okCall okCode ⟨attended w.pc i t, t, log⟩ →
      Session.Run parse okCall okCode ⟨a, f t, log ++ l⟩) :
    Sessions parse okCall okCode w' := by
  have hserial : t.serial < w.accepted :=
    hinv.fresh _ (List.mem_map_of_mem (List.mem_of_getElem? ht))
  refine ⟨fun e he => ?_, fun n hn => ?_⟩
  · rw [hlog] at he
    rw [hacc]
    rcases List.mem_append.mp he with he | he
    · exact h.fresh e he
    · rw [hes e he]
      exact hserial
  · rw [hacc] at hn
    obtain ⟨S, hrun, hS, hSlog, htablet⟩ := h.each n hn
    by_cases hne : t.serial = n
    · -- the tablet itself
      obtain ⟨rfl, hatt⟩ := htablet i t ht hne
      have hmine : mine n w'.log = S.log ++ l := by
        rw [hlog, mine_append, hSlog, mine_all fun e he => (hes e he).trans hne]
      have hrun' := hstep S.log (hatt hpc ▸ hrun)
      refine ⟨_, hrun', (hf _).2.trans hne, hmine.symm, fun j u hu hus => ?_⟩
      rw [htab, modifyAt_get] at hu
      split at hu
      · rename_i hij
        subst hij
        rw [ht] at hu
        cases hu
        exact ⟨rfl, hself⟩
      · rename_i hij
        exact absurd (eq_of_serial hinv.serials ht hu (hne.trans hus.symm)).1 hij
    · -- another tablet
      have hmine : mine n w'.log = mine n w.log := by
        rw [hlog, mine_append, mine_none (l := l) fun e he => (hes e he).symm ▸ hne,
          List.append_nil]
      refine ⟨S, hrun, hS, hSlog.trans hmine.symm, fun j u hu hus => ?_⟩
      rw [htab, modifyAt_get] at hu
      have hij : i ≠ j := by
        rintro rfl
        rw [if_pos rfl, ht] at hu
        cases hu
        exact hne ((hf t).2.symm.trans hus)
      rw [if_neg hij] at hu
      obtain ⟨hu', hatt⟩ := htablet j u hu hus
      refine ⟨hu', fun hpc' => (hatt hpc).trans ?_⟩
      unfold attended
      rw [decide_eq_decide.mpr (hfocus hpc' j (Ne.symm hij))]

/-- Only the main thread has gone on, and it attends to the same tablet or none. -/
theorem Sessions.goto (h : Sessions parse okCall okCode w) {pc : Pc ρ} (hpc : w.pc ≠ .crashed)
    (hfocus : pc.focus = w.pc.focus) : Sessions parse okCall okCode (w.goto pc) := by
  refine ⟨h.fresh, fun n hn => ?_⟩
  obtain ⟨S, hrun, hS, hSlog, htablet⟩ := h.each n hn
  refine ⟨S, hrun, hS, hSlog, fun j t ht hts => ?_⟩
  obtain ⟨ht', hatt⟩ := htablet j t ht hts
  refine ⟨ht', fun _ => (hatt hpc).trans ?_⟩
  show _ = attended pc j t
  unfold attended
  rw [hfocus]

/-- Tablets leave, and their sockets are closed. -/
theorem Sessions.leave (h : Sessions parse okCall okCode w) {l : List Effect}
    (hacc : w'.accepted = w.accepted) (hlog : w'.log = w.log ++ l) (hpc : w.pc ≠ .crashed)
    (hes : ∀ e ∈ l, ∃ n, e = .closed n ∧ n < w.accepted) (hfocus : w'.pc.focus = none)
    (hmem : ∀ t ∈ w'.connectedTablets,
      ∃ j, w.connectedTablets[j]? = some t ∧ w.pc.focus ≠ some j) :
    Sessions parse okCall okCode w' := by
  refine ⟨fun e he => ?_, fun n hn => ?_⟩
  · rw [hlog] at he
    rw [hacc]
    rcases List.mem_append.mp he with he | he
    · exact h.fresh e he
    · obtain ⟨n, rfl, hn⟩ := hes e he
      exact hn
  · rw [hacc] at hn
    obtain ⟨⟨a, t, log⟩, hrun, hS, hSlog, htablet⟩ := h.each n hn
    have hclosed : ∀ e ∈ mine n l, e = .closed t.serial := by
      intro e he
      obtain ⟨hmem, howner⟩ := List.mem_filter.mp he
      obtain ⟨m, rfl, _⟩ := hes e hmem
      have hm : m = n := of_decide_eq_true howner
      rw [hm]
      exact congrArg Effect.closed hS.symm
    refine ⟨_, hrun.closes hclosed, hS, ?_, fun j u hu hus => ?_⟩
    · rw [hlog, mine_append]
      exact congrArg (· ++ _) hSlog
    · obtain ⟨k, hk, hnot⟩ := hmem u (List.mem_of_getElem? hu)
      obtain ⟨hu', hatt⟩ := htablet k u hk hus
      refine ⟨hu', fun _ => (hatt hpc).trans ?_⟩
      unfold attended
      rw [hfocus, decide_eq_false hnot, decide_eq_false (by simp)]

/-- A tablet joins, and its session begins. -/
theorem Sessions.accept (h : Sessions parse okCall okCode w) (hinv : Inv A w) {socket : Socket}
    {mac : List Byte} {grow : Nat} (hpc : w.pc = .idle)
    (hw : w.acceptConn (some (socket, mac)) grow = some w') :
    Sessions parse okCall okCode (w'.goto (.ready 0)) := by
  obtain ⟨_, htab, _, _, hacc, _, hlog, _⟩ := acceptConn_eq_some hw
  refine ⟨?_, fun n hn => ?_⟩
  · show ∀ e ∈ w'.log, e.owner < w'.accepted
    rw [hlog, hacc]
    exact fun e he => Nat.lt_succ_of_lt (h.fresh e he)
  · have hn : n < w.accepted + 1 := hacc ▸ hn
    show ∃ S : Session ρ, _ ∧ _ ∧ S.log = mine n w'.log ∧ ∀ j t,
      w'.connectedTablets[j]? = some t → _
    rw [hlog, htab]
    rcases Nat.lt_succ_iff_lt_or_eq.mp hn with hlt | rfl
    · obtain ⟨S, hrun, hS, hSlog, htablet⟩ := h.each n hlt
      refine ⟨S, hrun, hS, hSlog, fun j t ht hts => ?_⟩
      rcases List.mem_append.mp (List.mem_of_getElem? ht) with hold | hnew
      · obtain ⟨k, hk⟩ := List.mem_iff_getElem?.mp hold
        obtain ⟨ht', hatt⟩ := htablet k t hk hts
        refine ⟨ht', fun _ => (hatt (by rw [hpc]; simp)).trans ?_⟩
        unfold attended
        rw [hpc]
        rfl
      · rw [List.mem_singleton.mp hnew] at hts
        exact absurd hts (Nat.ne_of_gt hlt)
    · refine ⟨_, .join w.accepted socket mac, rfl, ?_, ?_⟩
      · exact (mine_none fun e he => Nat.ne_of_lt (h.fresh e he)).symm
      · intro j t ht hts
        rcases List.mem_append.mp (List.mem_of_getElem? ht) with hold | hnew
        · have hlt := hinv.fresh _ (List.mem_map_of_mem hold)
          exact absurd hts (Nat.ne_of_lt hlt)
        · rw [List.mem_singleton.mp hnew]
          exact ⟨rfl, fun _ => rfl⟩

/-! ## Every step is one of a session -/

theorem attended_iff {pc : Pc ρ} {j : Nat} {t : BtTabObj ρ} :
    attended pc j t = true ↔ active pc j t := by
  unfold attended active
  rw [Bool.or_eq_true, decide_eq_true_eq]

theorem keepsPlace_id : KeepsPlace (id : BtTabObj ρ → BtTabObj ρ) := fun _ => ⟨rfl, rfl⟩

theorem modifyAt_id (w : Bluetooth ρ) (i : Nat) :
    w.connectedTablets = (w.modifyAt i id).connectedTablets := (List.modify_id i _).symm

/-- A tablet with an entry in the queue is undergoing a transaction. -/
theorem Inv.busy_of_entry (h : Inv A w) {i j : Nat} {e : QueueEntry ρ} {t : BtTabObj ρ}
    (he : w.runningTransactions[i]? = some e) (ht : w.connectedTablets[j]? = some t)
    (hts : t.serial = e.owner) : t.transactionState = true := by
  have hm := List.mem_map_of_mem (f := (·.owner)) (List.mem_of_getElem? he)
  rw [← hts] at hm
  exact (busy_serial h.serials ht).mp ((h.busy _).mp hm)

/-- The future of a tablet is asked, and the main thread still attends to it, or has crashed. -/
theorem Sessions.consult (h : Sessions parse okCall okCode w) (hinv : Inv A w) {i : Nat}
    {t : BtTabObj ρ} {pc : Pc ρ} (hw : w.pc ≠ .crashed)
    (ht : w.connectedTablets[i]? = some t) (hact : active w.pc i t)
    (hpc : pc = .crashed ∨ active pc i t ∧ ∀ j, j ≠ i → (pc.focus = some j ↔ w.pc.focus = some j)) :
    Sessions parse okCall okCode ((w.consult t).goto pc) := by
  refine h.update (f := id) (l := [consultation t]) (a := true) hinv ht keepsPlace_id ?_ rfl rfl
    (fun e he => by rw [List.mem_singleton.mp he]; rfl) hw ?_ ?_ fun log hrun => ?_
  · exact modifyAt_id w i
  · exact fun hne => hpc.elim (fun hc => absurd hc hne) And.right
  · exact fun hne => hpc.elim (fun hc => absurd hc hne) fun hpc => (attended_iff.mpr hpc.1).symm
  · rw [attended_iff.mpr hact] at hrun
    exact hrun.step .consult

/-- A job makes a call. -/
theorem Sessions.job (h : Sessions parse okCall okCode w) (hinv : Inv A w) (hpc : w.pc ≠ .crashed)
    {i : Nat} {t : BtTabObj ρ} {s : SharedState ρ} {prog : Job (Option (List Byte) × Bool)}
    {e : Event winsock} (hcall : okCall e) (ht : w.connectedTablets[i]? = some t)
    (hs : t.currTrans.data = some s) (hst : s.started = true) (hp : s.prog.feed e = some prog)
    (hact : active w.pc i t) (hfor : s.forCode = t.codesRead) : Sessions parse okCall okCode
      ((w.modifyAt i (worked s prog e)).note (jobEffect t.serial e)) := by
  have hstate : (worked s prog e t).transactionState = t.transactionState := by
    unfold worked
    split
    · rfl
    · rfl
  refine h.update (f := worked s prog e) (l := [jobEffect t.serial e]) (a := true) hinv ht
    (keepsPlace_worked s prog e) rfl rfl rfl ?_ hpc (fun _ _ _ => Iff.rfl) ?_ fun log hrun => ?_
  · intro e' he'
    rw [List.mem_singleton.mp he']
    exact owner_jobEffect _ _
  · intro _
    refine (attended_iff.mpr ?_).symm
    show _ = true ∨ _
    rw [hstate]
    exact hact
  · rw [attended_iff.mpr hact] at hrun
    exact hrun.step (.work hcall hs hst hp hfor)

/-- A call of the main thread returns; that a socket was closed is noted. -/
theorem Sessions.call (h : Sessions parse okCall okCode w) (hinv : Inv A w) (hpc : w.pc ≠ .crashed)
    {i : Nat} {p p' : Job (Option TransactionType)} {t : BtTabObj ρ} {e : Event winsock}
    (hpoll : w.pc = .polling i p) (ht : w.connectedTablets[i]? = some t) :
    Sessions parse okCall okCode (if e.1 = .closesocket then
      (w.goto (.polling i p')).note (.closed t.serial) else w.goto (.polling i p')) := by
  split
  · refine h.update (f := id) (l := [.closed t.serial]) hinv ht keepsPlace_id ?_ rfl rfl
      (fun e he => by rw [List.mem_singleton.mp he]; rfl) hpc ?_ (fun _ => rfl)
      fun log hrun => ?_
    · exact modifyAt_id w i
    · intro _ j _
      rw [hpoll]
      exact Iff.rfl
    · have hsame : attended (((w.goto (.polling i p')).note (.closed t.serial)).pc) i (id t) =
          attended w.pc i t := by
        rw [hpoll]
        rfl
      rw [hsame]
      exact hrun.step .close
  · exact h.goto hpc (by rw [hpoll]; rfl)

/-- A code is served: from here on there is a pointer to its tablet. -/
theorem Sessions.serve (h : Sessions parse okCall okCode w) (hinv : Inv A w)
    (hpc : w.pc ≠ .crashed) {i : Nat} {c : TransactionType} {t : BtTabObj ρ} {launch : Launch}
    {readWholeFile : Files} (hcode : okCode c) (hpoll : w.pc = .polling i (.ret (some c)))
    (ht : w.connectedTablets[i]? = some t) (hstop : t.jobRunning = false)
    (hfree : t.transactionState = false) : Sessions parse okCall okCode
      ((w.modifyAt i (Bluetooth.serve (w.pointer A i) launch readWholeFile c)).goto
        (.started i (w.pointer A i))) := by
  have hnot : attended w.pc i t = false := by
    unfold attended
    rw [hpoll, hfree]
    rfl
  refine h.update (f := Bluetooth.serve (w.pointer A i) launch readWholeFile c) (l := [])
    (a := true) hinv ht (keepsPlace_serve _ _ _ _) rfl rfl (List.append_nil _).symm
    (fun e he => absurd he List.not_mem_nil) hpc ?_ ?_ fun log hrun => ?_
  · intro _ j hj
    rw [hpoll]
    constructor
    · intro hf
      exact absurd (Option.some.inj hf).symm hj
    · intro hf
      exact absurd hf (by simp [Pc.focus])
  · intro _
    exact (attended_iff.mpr (Or.inr rfl)).symm
  · rw [hnot] at hrun
    rw [List.append_nil]
    exact hrun.step (.serve hcode hstop hfree)

/-- A transaction is queued, and its tablet is busy with it. -/
theorem Sessions.queue (h : Sessions parse okCall okCode w) (hinv : Inv A w)
    (hpc : w.pc ≠ .crashed) {i : Nat} {q : ρ} {t : BtTabObj ρ} (hstarted : w.pc = .started i q)
    (ht : w.connectedTablets[i]? = some t) (hbatman : t.currTrans.batmanTrans = false) :
    Sessions parse okCall okCode ((((w.consult t).push ⟨q, t.serial⟩).modifyAt i
      (setTransactionState true)).goto (.ready (i + 1))) := by
  refine h.update (f := setTransactionState true) (l := [consultation t]) (a := true) hinv ht
    (fun _ => ⟨rfl, rfl⟩) rfl rfl rfl (fun e he => by rw [List.mem_singleton.mp he]; rfl) hpc
    ?_ (fun _ => rfl) fun log hrun => ?_
  · intro _ j hj
    rw [hstarted]
    constructor
    · intro hf
      exact absurd hf (by simp [Bluetooth.goto, Pc.focus])
    · intro hf
      exact absurd (Option.some.inj hf).symm hj
  · rw [attended_iff.mpr (Or.inr (by rw [hstarted]; rfl))] at hrun
    exact hrun.step (.queue hbatman)

/-- A result is handled in the pass in which its code was read. -/
theorem Sessions.concludeReady (h : Sessions parse okCall okCode w) (hinv : Inv A w)
    (hpc : w.pc ≠ .crashed) {j : Nat} {q : ρ} {t : BtTabObj ρ} {r : Handled ρ}
    (hhandling : w.pc = .handling q t.serial (.ready j)) (ht : w.connectedTablets[j]? = some t)
    (hfree : t.transactionState = false) (hr : handleTransResult parse t.currTrans = .ok r) :
    Sessions parse okCall okCode { w.modifyAt j (settle r) with
      log := w.log ++ (asked t ++ concluded t r), pc := .ready (j + 1) } := by
  have hact := hinv.active_of_handling hhandling ht rfl
  have hsettle : setTransactionState false (settle r t) = settle r t := by
    unfold setTransactionState settle
    rw [hfree]
  refine h.update (f := settle r) (l := asked t ++ concluded t r) (a := false) hinv ht
    (keepsPlace_settle r) rfl rfl rfl ?_ hpc ?_ ?_ fun log hrun => ?_
  · exact fun e he => (List.mem_append.mp he).elim owner_asked owner_concluded
  · intro _ k hk
    rw [hhandling]
    constructor
    · intro hf
      exact absurd hf (by simp [Pc.focus])
    · intro hf
      exact absurd (Option.some.inj hf).symm hk
  · intro _
    unfold attended settle
    rw [hfree]
    rfl
  · rw [attended_iff.mpr hact] at hrun
    have hconclude := hrun.step (.conclude (l := []) hr fun e he => absurd he List.not_mem_nil)
    rwa [hsettle, List.append_nil] at hconclude

/-- The result of an entry of the queue is handled, and the tablet is released. -/
theorem Sessions.concludeRunning (h : Sessions parse okCall okCode w) (hinv : Inv A w)
    (hpc : w.pc ≠ .crashed) {i j : Nat} {q : ρ} {t : BtTabObj ρ} {r : Handled ρ}
    (hhandling : w.pc = .handling q t.serial (.running i)) (ht : w.connectedTablets[j]? = some t)
    (hr : handleTransResult parse t.currTrans = .ok r) :
    Sessions parse okCall okCode { w.modifyAt j (setTransactionState false ∘ settle r) with
      runningTransactions := w.runningTransactions.eraseIdx i
      log := w.log ++ (asked t ++ concluded t r ++ [.released (some t.serial) t.serial])
      pc := .running (i + 1) } := by
  have hact := hinv.active_of_handling hhandling ht rfl
  refine h.update (f := setTransactionState false ∘ settle r)
    (l := asked t ++ concluded t r ++ [.released (some t.serial) t.serial]) (a := false) hinv
    ht (fun _ => ⟨rfl, rfl⟩) rfl rfl rfl ?_ hpc ?_ (fun _ => rfl) fun log hrun => ?_
  · intro e he
    rcases List.mem_append.mp he with he | he
    · exact (List.mem_append.mp he).elim owner_asked owner_concluded
    · rw [List.mem_singleton.mp he]
      rfl
  · intro _ k _
    rw [hhandling]
    exact Iff.rfl
  · rw [attended_iff.mpr hact] at hrun
    exact hrun.step (.conclude hr fun e he => List.mem_singleton.mp he)

/-- **Every deed of the server is one of the session of one tablet**, or of none. -/
theorem Sessions.deed (h : Sessions parse okCall okCode w) (hinv : Inv A w) {a : Act}
    (hpc : w.pc ≠ .crashed) (hcall : ∀ i e, a = .job i e → okCall e)
    (hcode : ∀ i c launch readWholeFile, w.pc = .polling i (.ret (some c)) →
      a = .go launch readWholeFile → okCode c)
    (hd : Deed A parse w a w') : Sessions parse okCall okCode w' := by
  cases hd with
  | nobody hidle => exact h.goto hpc (by rw [hidle]; rfl)
  | accept hidle hw => exact h.accept hinv hidle hw
  | kill hidle hw =>
      rcases killSocket_eq_some hw with ⟨_, rfl⟩ | ⟨i, t, _, ht, _, rfl⟩
      · exact h
      · refine h.leave (l := [.closed t.serial]) rfl rfl hpc ?_ (by simp [note, hidle, Pc.focus]) ?_
        · intro e he
          exact ⟨_, List.mem_singleton.mp he,
            hinv.fresh _ (List.mem_map_of_mem (List.mem_of_getElem? ht))⟩
        · intro u hu
          obtain ⟨j, hj⟩ := List.mem_iff_getElem?.mp (List.mem_of_mem_eraseIdx hu)
          exact ⟨j, hj, by simp [hidle, Pc.focus]⟩
  | killAll hidle hw =>
      unfold Bluetooth.killAllSockets at hw
      split at hw
      · exact absurd hw (by simp)
      · cases hw
        refine h.leave (l := w.connectedTablets.map fun t => .closed t.serial) rfl rfl hpc ?_
          (by simp [hidle, Pc.focus]) fun u hu => absurd hu List.not_mem_nil
        intro e he
        obtain ⟨t, ht, rfl⟩ := List.mem_map.mp he
        exact ⟨_, rfl, hinv.fresh _ (List.mem_map_of_mem ht)⟩
  | @job i t s prog e ht hs hst hp hact hfor =>
      exact h.job hinv hpc (hcall i e rfl) ht hs hst hp hact hfor
  | ask hready _ => exact h.goto hpc (by rw [hready]; rfl)
  | readyDone hready _ => exact h.goto hpc (by rw [hready]; rfl)
  | @call i p p' t e hpoll _ ht =>
      exact h.call hinv hpc hpoll ht
  | pass hpoll => exact h.goto hpc (by rw [hpoll]; rfl)
  | @serve i c t launch readWholeFile hpoll ht hstop hfree =>
      exact h.serve hinv hpc (hcode i c launch readWholeFile hpoll rfl) hpoll ht hstop hfree
  | @goodbye i q t launch readWholeFile hstarted ht _ =>
      refine h.leave (l := [.closed t.serial]) rfl rfl hpc ?_ rfl ?_
      · intro e he
        exact ⟨_, List.mem_singleton.mp he,
          hinv.fresh _ (List.mem_map_of_mem (List.mem_of_getElem? ht))⟩
      · intro u hu
        obtain ⟨j, hj, hu⟩ := List.mem_eraseIdx_iff_getElem?.mp hu
        refine ⟨j, hu, ?_⟩
        rw [hstarted]
        exact fun hf => hj (Option.some.inj hf).symm
  | noFuture hstarted ht _ _ =>
      exact h.consult hinv hpc ht (Or.inr (by rw [hstarted]; rfl)) (Or.inl rfl)
  | ready hstarted ht _ _ =>
      refine h.consult hinv hpc ht (Or.inr (by rw [hstarted]; rfl)) (Or.inr ⟨Or.inr rfl, ?_⟩)
      intro j _
      rw [hstarted]
      exact Iff.rfl
  | @queue i q t launch readWholeFile hstarted ht hbatman _ =>
      exact h.queue hinv hpc hstarted ht hbatman
  | @wait j q t caller launch readWholeFile hhandling ht hwait _ =>
      have hact := hinv.active_of_handling hhandling ht rfl
      refine h.update (f := start) (l := asked t) (a := true) hinv ht (fun _ => ⟨rfl, rfl⟩) rfl rfl
        rfl (fun e he => owner_asked he) hpc (fun _ _ _ => Iff.rfl) ?_ fun log hrun => ?_
      · exact fun _ => (attended_iff.mpr hact).symm
      · rw [attended_iff.mpr hact] at hrun
        exact hrun.step (.wait hwait)
  | @fault j q t caller f launch readWholeFile hhandling ht _ _ =>
      have hact := hinv.active_of_handling hhandling ht rfl
      refine h.update (f := id) (l := asked t) (a := true) hinv ht keepsPlace_id ?_ rfl rfl
        (fun e he => owner_asked he) hpc (fun hne => absurd rfl hne) (fun hne => absurd rfl hne)
        fun log hrun => ?_
      · exact modifyAt_id w j
      · rw [attended_iff.mpr hact] at hrun
        exact hrun.step .ask
  | @concludeReady j q t r launch readWholeFile hhandling ht hfree hr =>
      exact h.concludeReady hinv hpc hhandling ht hfree hr
  | @concludeRunning i j q t r launch readWholeFile hhandling ht _ hr =>
      exact h.concludeRunning hinv hpc hhandling ht hr
  | queueDone hrunning _ => exact h.goto hpc (by rw [hrunning]; rfl)
  | lost hrunning he ht hts _ =>
      exact h.consult hinv hpc ht (Or.inl (hinv.busy_of_entry he ht hts)) (Or.inl rfl)
  | due hrunning he ht hts _ =>
      have hbusy := hinv.busy_of_entry he ht hts
      refine h.consult hinv hpc ht (Or.inl hbusy) (Or.inr ⟨Or.inl hbusy, fun j _ => ?_⟩)
      rw [hrunning]
      exact Iff.rfl
  | notYet hrunning he ht hts _ =>
      have hbusy := hinv.busy_of_entry he ht hts
      refine h.consult hinv hpc ht (Or.inl hbusy) (Or.inr ⟨Or.inl hbusy, fun j _ => ?_⟩)
      rw [hrunning]
      exact Iff.rfl

/-- What a run whose steps meet `ok` lets its jobs be answered and its tablets send. -/
structure Lets (ok : Bluetooth ρ → Act → Prop) (okCall : Event winsock → Prop)
    (okCode : TransactionType → Prop) : Prop where
  call : ∀ w i e, ok w (.job i e) → okCall e
  code : ∀ w i c launch readWholeFile, w.pc = .polling i (.ret (some c)) →
    ok w (.go launch readWholeFile) → okCode c

/-- Sessions go on as sessions in every run that keeps to the pointers in use. -/
theorem sessions_run {ok : Bluetooth ρ → Act → Prop}
    (hkeep : ∀ w w' a, Inv A w → ok w a → w.act A parse a = some w' → StepKeeps A w w' a)
    (hlets : Lets ok okCall okCode) (h : Run A parse ok w) :
    Sound A w ∧ Sessions parse okCall okCode w := by
  refine Steps.Run.invariant (J := fun w => Sound A w ∧ Sessions parse okCall okCode w) h
    ⟨Or.inl inv_init, sessions_init⟩ ?_
  rintro w w' a ⟨hsound, hsessions⟩ ha hs
  rcases hsound with hinv | ⟨hpc, _⟩
  · have hpc : w.pc ≠ .crashed := by
      intro hpc
      rw [act_of_crashed hpc] at hs
      exact absurd hs (by simp)
    refine ⟨hinv.act hs (hkeep w w' a hinv ha hs), hsessions.deed hinv hpc ?_ ?_ (hinv.deed hs)⟩
    · rintro i e rfl
      exact hlets.call w i e ha
    · rintro i c launch readWholeFile hpoll rfl
      exact hlets.code w i c launch readWholeFile hpoll ha
  · rw [act_of_crashed hpc] at hs
    exact absurd hs (by simp)

/-- Any run lets its jobs be answered and its tablets send something. -/
theorem lets_trivial {ok : Bluetooth ρ → Act → Prop} : Lets ok (fun _ => True) fun _ => True where
  call _ _ _ _ := trivial
  code _ _ _ _ _ _ _ := trivial

/--
**The server is the product of its sessions**: in every run in which slots keep their
tablets, all that has happened to a tablet and was noted on its account is a run of a session
of its own, in which no other tablet has a part; a tablet in the table is as its session has it.
-/
theorem sessions_of_slotSafe (parse : List Byte → Option Json) (w : Bluetooth (Nat × Nat))
    (h : Run slots parse (fun w a => slotSafe w a = true) w) (n : Nat) (hn : n < w.accepted) :
    ∃ S : Session (Nat × Nat), Session.Run parse (fun _ => True) (fun _ => True) S ∧
      S.tablet.serial = n ∧ S.log = mine n w.log ∧
      ∀ t ∈ w.connectedTablets, t.serial = n → S.tablet = t := by
  obtain ⟨_, hsessions⟩ := sessions_run (fun _ _ _ hi hok hw => stepKeeps_slots hi hok hw)
    lets_trivial h
  obtain ⟨S, hrun, hserial, hlog, htablet⟩ := hsessions.each n hn
  refine ⟨S, hrun, hserial, hlog, fun t ht hts => ?_⟩
  obtain ⟨j, hj⟩ := List.mem_iff_getElem?.mp ht
  exact (htablet j t hj hts).1

theorem sessions_of_slotSafe_amid : ∃ S S' : Session (Nat × Nat),
    Session.Run (fun _ => none) (fun _ => True) (fun _ => True) S ∧ S.tablet.serial = 0 ∧
    S.log.contains (.moved (some 0) 0 [] ack) = true ∧
    Session.Run (fun _ => none) (fun _ => True) (fun _ => True) S' ∧ S'.tablet.serial = 1 ∧
    S'.log.contains (.closed 1) = true := by
  have h : ((replay (act slots fun _ => none) slotSafe transferAmid init).map fun w =>
      (w.accepted, (mine 0 w.log).contains (.moved (some 0) 0 [] ack),
        (mine 1 w.log).contains (.closed 1))) = some (3, true, true) := by
    decide +kernel
  obtain ⟨w, hw, h⟩ := Option.map_eq_some_iff.mp h
  simp only [Prod.mk.injEq] at h
  obtain ⟨hacc, hmoved, hclosed⟩ := h
  have hrun := run_of_replay (fun _ _ h => h) .init hw
  obtain ⟨S, hS, hserial, hlog, _⟩ := sessions_of_slotSafe (fun _ => none) w hrun 0 (by omega)
  obtain ⟨S', hS', hserial', hlog', _⟩ := sessions_of_slotSafe (fun _ => none) w hrun 1 (by omega)
  exact ⟨S, S', hS, hserial, by rw [hlog]; exact hmoved, hS', hserial', by rw [hlog']; exact hclosed⟩

end Bluetooth

end ScoutComputer
