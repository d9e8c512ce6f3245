import ScoutComputer.Bluetooth.TableProof

/-!
# The calls made for a tablet that is not undergoing a transaction

In one pass of `handleReadyConnections` at most one byte is taken from such a tablet, and
nothing is given to it unless it is then hung up on. From a tablet that is undergoing a
transaction nothing is taken.
-/

namespace ScoutComputer

open Interact

/-- What is remembered of the calls the main thread makes for one tablet. -/
structure Poll where
  /-- The bytes taken. -/
  inp : List Byte
  /-- Whether any were given. -/
  spoke : Bool
  /-- No more than one byte was taken, and none once any were given. -/
  fine : Bool

def Poll.init : Poll := ⟨[], false, true⟩

def Poll.next (o : Poll) (c : Call) (r : c.Res) : Poll where
  inp := o.inp ++ taken c r
  spoke := o.spoke || !(given c r).isEmpty
  fine := o.fine && ((taken c r).isEmpty || !o.spoke && o.inp.isEmpty && (taken c r).length == 1)

def poll : Observer winsock Poll where
  allow _ c r := Permitted c r
  next := Poll.next

theorem poll_next_self (o : Poll) {c : Call} {r : c.Res} (ht : taken c r = [])
    (hg : given c r = []) : o.next c r = o := by
  unfold Poll.next
  rw [ht, hg]
  simp

/-- Nothing has been taken, and nothing given. -/
theorem poll_keeps {c : Call} (h : ∀ r : c.Res, taken c r = [] ∧ given c r = []) :
    Keeps poll (Prog.perform (I := winsock) c) :=
  Keeps.perform fun o r => poll_next_self o (h r).1 (h r).2

theorem selectReady_keepsPoll (write : Bool) : Keeps poll (selectReady write) :=
  selectReady_keeps (fun _ o _ => poll_next_self o rfl rfl) write

/-- Nothing was given, and what was taken is the byte that is returned, if one is. -/
def CodeRead (o : Poll) (data : Option (List Byte)) : Prop :=
  o.spoke = false ∧ o.fine = true ∧ (data = none ∨ ∃ b, data = some [b] ∧ o.inp = [b])

theorem deadline_poll {timeoutTime : Rat} {o : Poll} {f : Job (RecvLoop ⊕ Option (List Byte))}
    {post : Poll → RecvLoop ⊕ Option (List Byte) → Prop} (hfine : o.fine = true)
    (hlate : post o (.inr none)) (hf : Spec poll f o (·.fine = true) post) :
    Spec poll ((getTime (some timeoutTime)).bind fun now =>
      if now > timeoutTime then .ret (.inr none) else f) o (·.fine = true) post := by
  refine Keeps.bind_spec (poll_keeps fun _ => ⟨rfl, rfl⟩) hfine fun now => ?_
  split
  · exact Spec.ret hfine hlate
  · exact hf

/-- A code is one byte. -/
theorem recvLoop_poll (timeoutTime : Rat) :
    Spec poll (recvLoop btExpectedDataInitial timeoutTime) .init (·.fine = true) CodeRead := by
  refine Spec.loop (fun s o => s.dataRecvd = [] ∧ o = .init) ⟨rfl, rfl⟩ ?_
  rintro s o ⟨hs, rfl⟩
  refine ⟨rfl, fun res hres => ?_⟩
  rw [hs] at hres ⊢
  have hnone : Spec poll (.ret none) .init (·.fine = true) CodeRead :=
    Spec.ret rfl ⟨rfl, rfl, Or.inl rfl⟩
  show Spec poll (recvIteration btExpectedDataInitial s res) (Poll.next .init (.recv 1) res) _ _
  cases res with
  | err code =>
      rw [poll_next_self (c := .recv 1) (r := .err code) .init rfl rfl]
      refine deadline_poll rfl hnone ?_
      show Spec poll (if _ then _ else _) _ _ _
      split
      · exact Spec.ret rfl ⟨hs, rfl⟩
      · exact Spec.ret rfl hnone
  | ret bs =>
      cases bs with
      | nil =>
          rw [poll_next_self (c := .recv 1) (r := .ret []) .init rfl rfl]
          exact deadline_poll rfl hnone (Spec.ret rfl hnone)
      | cons b bs =>
          have hlen : (b :: bs).length ≤ 1 := hres
          -- no more than one byte was asked for
          have hbs : bs = [] := List.eq_nil_of_length_eq_zero (by rw [List.length_cons] at hlen; omega)
          subst hbs
          have hnext : Poll.next .init (.recv 1) (.ret [b]) = ⟨[b], false, true⟩ := rfl
          rw [hnext]
          have hlate : Spec poll (.ret none) ⟨[b], false, true⟩ (·.fine = true) CodeRead :=
            Spec.ret rfl ⟨rfl, rfl, Or.inl rfl⟩
          refine Keeps.bind_spec (p := getTime none) (poll_keeps fun _ => ⟨rfl, rfl⟩) rfl
            fun now => deadline_poll rfl hlate ?_
          show Spec poll (if _ then _ else _) _ _ _
          rw [hs, if_neg (by simp [btExpectedDataInitial])]
          exact Spec.ret rfl (Spec.ret rfl ⟨rfl, rfl, Or.inr ⟨b, rfl, rfl⟩⟩)

/-- A code that is no goodbye is the byte that was taken. -/
def CodeTaken (o : Poll) (c : TransactionType) : Prop :=
  o.fine = true ∧ (isGoodbye c = true ∨ o.spoke = false ∧ ∃ b : Byte, o.inp = [b] ∧ c = b.toInt8)

/-- A code that is there is one byte. -/
theorem readCode_poll : Spec poll (readAllSocketData .loc btExpectedDataInitial) .init
    (·.fine = true) fun o r => CodeRead o r.1 ∧ (r.2 = true → r.1.isSome = true) := by
  refine Keeps.bind_spec (p := getTime none) (poll_keeps fun _ => ⟨rfl, rfl⟩) rfl fun now => ?_
  refine Keeps.bind_spec (p := malloc btExpectedDataInitial) (poll_keeps fun _ => ⟨rfl, rfl⟩)
    rfl fun ok => ?_
  cases ok with
  | false => exact Spec.ret rfl ⟨⟨rfl, rfl, Or.inl rfl⟩, fun h => Bool.noConfusion h⟩
  | true =>
      refine Spec.bind (recvLoop_poll (now + 10)) fun o data hdata => ?_
      cases data with
      | none => exact Spec.ret hdata.2.1 ⟨hdata, fun h => Bool.noConfusion h⟩
      | some d => exact Spec.ret hdata.2.1 ⟨hdata, fun _ => rfl⟩

theorem getTransactionType_poll :
    Spec poll getTransactionType .init (·.fine = true) CodeTaken := by
  refine Spec.bind readCode_poll fun o r hr => ?_
  obtain ⟨data, success⟩ := r
  obtain ⟨⟨hspoke, hfine, hdata⟩, hsome⟩ := hr
  cases success with
  | false => exact Spec.ret hfine ⟨hfine, Or.inl rfl⟩
  | true =>
      rcases hdata with rfl | ⟨b, rfl, hinp⟩
      · exact absurd (hsome rfl) Bool.false_ne_true
      · exact Spec.ret hfine ⟨hfine, Or.inr ⟨hspoke, b, hinp, rfl⟩⟩

theorem readTransactionData_poll :
    Spec poll readTransactionData .init (·.fine = true) CodeTaken := by
  refine Keeps.bind_spec (selectReady_keepsPoll false) rfl fun ready => ?_
  cases ready with
  | false => exact Spec.ret rfl ⟨rfl, Or.inl rfl⟩
  | true =>
      refine Keeps.bind_spec (selectReady_keepsPoll true) rfl fun ready => ?_
      cases ready with
      | false => exact Spec.ret rfl ⟨rfl, Or.inl rfl⟩
      | true => exact getTransactionType_poll

theorem sendToSocket_poll (data : List Byte) {o : Poll} (ho : o.fine = true) :
    Spec poll (sendToSocket data) o (·.fine = true) fun o' _ => o'.fine = true := by
  unfold sendToSocket
  split
  · exact Spec.ret ho ho
  · refine Spec.loop (fun _ o' => o'.fine = true) ho fun sentData o' ho' => ⟨ho', fun r _ => ?_⟩
    have hnext : (o'.next (.send (data.drop sentData)) r).fine = true := by
      show (o'.fine && (true || _)) = true
      rw [ho']
      rfl
    cases r with
    | err code =>
        show Spec poll (if _ then _ else _) _ _ _
        split
        · exact Spec.ret hnext hnext
        · exact Spec.ret hnext (Spec.ret hnext hnext)
    | ret k =>
        show Spec poll (if _ then _ else _) _ _ _
        split
        · exact Spec.ret hnext hnext
        · exact Spec.ret hnext (Spec.ret hnext hnext)

theorem farewell_poll {c : TransactionType} {o : Poll} (h : CodeTaken o c) :
    Spec poll ((farewell c).bind fun _ => .ret (some c)) o (·.fine = true)
      fun o' r => ∃ c, r = some c ∧ CodeTaken o' c := by
  have hclose : ∀ o : Poll, o.fine = true → isGoodbye c = true →
      Spec poll (closesocket.bind fun _ => .ret (some c)) o (·.fine = true)
        fun o' r => ∃ c, r = some c ∧ CodeTaken o' c := by
    intro o ho hbye
    refine Keeps.bind_spec (p := closesocket) (poll_keeps fun _ => ⟨rfl, rfl⟩) ho fun _ => ?_
    exact Spec.ret ho ⟨c, rfl, ho, Or.inl hbye⟩
  unfold farewell
  by_cases herr : c = transSocketError
  · subst herr
    rw [if_pos rfl]
    show Spec poll (Prog.bind (Prog.bind sendNack _) _) o _ _
    rw [Prog.bind_assoc]
    show Spec poll (Prog.bind (Prog.bind (malloc btTabNackSize) _) _) o _ _
    rw [Prog.bind_assoc]
    refine Keeps.bind_spec (p := malloc btTabNackSize) (poll_keeps fun _ => ⟨rfl, rfl⟩) h.1
      fun ok => ?_
    cases ok with
    | false => exact hclose o h.1 rfl
    | true => exact Spec.bind (sendToSocket_poll nack h.1) fun o' _ ho' => hclose o' ho' rfl
  · rw [if_neg herr]
    by_cases hzero : c = transCloseSocket
    · subst hzero
      rw [if_pos rfl]
      exact hclose o h.1 rfl
    · rw [if_neg hzero]
      exact Spec.ret h.1 ⟨c, rfl, h⟩

/-- How the calls for a free tablet end. -/
def PollEnd (o : Poll) (r : Option TransactionType) : Prop :=
  r = none ∧ o = .init ∨ ∃ c, r = some c ∧ CodeTaken o c

theorem serveTablet_poll : Spec poll (serveTablet false) .init (·.fine = true) PollEnd := by
  refine Keeps.bind_spec (selectReady_keepsPoll false) rfl fun ready => ?_
  cases ready with
  | false => exact Spec.ret rfl (Or.inl ⟨rfl, rfl⟩)
  | true =>
      refine Spec.bind readTransactionData_poll fun o c hc => ?_
      exact (farewell_poll hc).mono (fun _ h => h) fun _ _ _ h => Or.inr h

/-- A tablet that is undergoing a transaction is only looked at. -/
theorem serveTablet_poll_busy :
    Spec poll (serveTablet true) .init (· = .init) fun _ r => r = none := by
  refine Keeps.bind_spec (selectReady_keepsPoll false) rfl fun ready => ?_
  rw [if_pos (Bool.or_true _)]
  exact Spec.ret rfl rfl

end ScoutComputer
