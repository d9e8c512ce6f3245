import ScoutComputer.Bluetooth.ConductorProof
import ScoutComputer.Bluetooth.FrameProof
import ScoutComputer.Lib.Dialogue

/-!
# Every exchange can be completed

`TransferProof` says what the routines do to the wire if they return. Here they are run
against a tablet that keeps to the conversation, in pieces of any size, while nothing goes
wrong: no deadline passes, every allocation is granted, and no call reports an error or the
end of the connection (`calmWire`). From every state such a run reaches, whatever has been
delayed so far, the two sides can finish, and then each has heard exactly what the other had
to say. What is left of the dialogue is the invariant: each call either takes the next of it
or leaves it as it is, and can be answered so that the routine comes further.
-/

namespace ScoutComputer

open Interact Endian Turn

/-- An answer after which a transfer has come further than before the call. -/
def furthers : (c : Call) → c.Res → Prop
  | .recv _, .err _ => False
  | .send _, .err _ => False
  | .send _, .ret n => 0 < n
  | _, _ => True

/-- The connection of a tablet, while nothing goes wrong. -/
def calmWire : Wiring winsock Byte where
  taken := taken
  given := given
  fine c r := Permitted c r ∧ disturbs c r = false
  work := furthers
  one_way c r := by
    cases c with
    | send data => exact Or.inl rfl
    | _ => exact Or.inr rfl

/-- At every point of `p`, with `d` left of the dialogue, it can still end as `post` has it. -/
abbrev Lasts {α : Type} (p : Job α) (d : List (Turn Byte))
    (post : List (Turn Byte) → α → Prop) : Prop := Live calmWire.pace p d post

/-! ## One call -/

section
variable {α : Type} {d : List (Turn Byte)} {post : List (Turn Byte) → α → Prop}

/-- A call that moves no bytes and can be answered at once. -/
theorem lasts_call {c : Call} {k : c.Res → Job α} (ht : ∀ r, taken c r = [])
    (hg : ∀ r, given c r = []) (hserve : ∃ r, Permitted c r ∧ disturbs c r = false ∧ furthers c r)
    (h : ∀ r, disturbs c r = false → Lasts (k r) d post) :
    Lasts (Prog.call (I := winsock) c k) d post := by
  obtain ⟨r₀, hperm, hcalm, hfur⟩ := hserve
  refine Live.call ⟨fun r _ => ?_, Or.inl ⟨r₀, ⟨hperm, hcalm⟩, hfur, ht r₀⟩⟩ fun r hr => ?_
  · show saying (given c r) <+: d
    rw [hg]
    exact List.nil_prefix
  · show Live _ _ (d.drop ((taken c r).length + (given c r).length)) _
    rw [ht, hg]
    exact h r hr.1.2

theorem lasts_set {ref : SuccessRef} {b : Bool} {f : Unit → Job α}
    (h : Lasts (f ()) d post) : Lasts ((ref.set b).bind f) d post := by
  cases ref with
  | loc => exact h
  | trans =>
      exact lasts_call (fun _ => rfl) (fun _ => rfl) ⟨(), trivial, rfl, trivial⟩ fun _ _ => h

theorem lasts_getTime_none {f : Rat → Job α} (h : ∀ now, Lasts (f now) d post) :
    Lasts ((getTime none).bind f) d post :=
  lasts_call (fun _ => rfl) (fun _ => rfl) ⟨(0 : Rat), trivial, rfl, trivial⟩ fun now _ => h now

/-- While nothing goes wrong no deadline passes. -/
theorem lasts_getTime_some {timeoutTime : Rat} {f : Rat → Job α}
    (h : ∀ now, ¬ timeoutTime < now → Lasts (f now) d post) :
    Lasts ((getTime (some timeoutTime)).bind f) d post := by
  refine lasts_call (fun _ => rfl) (fun _ => rfl) ⟨timeoutTime, trivial, ?_, trivial⟩ ?_
  · exact decide_eq_false Rat.lt_irrefl
  · exact fun now hnow => h now (of_decide_eq_false hnow)

theorem lasts_malloc {n : Nat} (hn : n < 2 ^ 63) {f : Bool → Job α}
    (h : Lasts (f true) d post) : Lasts ((malloc n).bind f) d post := by
  refine lasts_call (fun _ => rfl) (fun _ => rfl) ⟨true, ?_, rfl, trivial⟩ ?_
  · exact fun hle => absurd hn (Nat.not_lt.mpr hle)
  · intro ok hok
    cases ok with
    | false => exact Bool.noConfusion hok
    | true => exact h

end

/-! ## `readAllSocketData` -/

/-- The deadline check of an iteration never ends the loop. -/
theorem lasts_deadline {timeoutTime : Rat} {f : Job (RecvLoop ⊕ Option (List Byte))}
    {d : List (Turn Byte)} {post : List (Turn Byte) → RecvLoop ⊕ Option (List Byte) → Prop}
    (h : Lasts f d post) :
    Lasts ((getTime (some timeoutTime)).bind fun now =>
      if now > timeoutTime then .ret (.inr none) else f) d post := by
  refine lasts_getTime_some fun now hnow => ?_
  rw [if_neg hnow]
  exact h

/-- The loop takes the bytes that come next, however they are cut. -/
theorem lasts_recvLoop {bs : List Byte} (hbs : bs ≠ []) (timeoutTime : Rat)
    (e : List (Turn Byte)) :
    calmWire.Follows (recvLoop bs.length timeoutTime) (hearing bs ++ e) e (· = some bs) := by
  refine Live.loop (fun s d => ∃ todo, todo ≠ [] ∧ bs = s.dataRecvd ++ todo ∧ d = hearing todo ++ e)
    (fun _ d => d.length) ⟨bs, hbs, rfl, rfl⟩ ?_
  rintro s d ⟨todo, htodo, hsplit, rfl⟩
  have hlen : bs.length - s.dataRecvd.length = todo.length := by
    rw [hsplit, List.length_append]
    omega
  obtain ⟨b, todo', rfl⟩ := List.exists_cons_of_ne_nil htodo
  refine ⟨⟨fun _ _ => List.nil_prefix, Or.inr ⟨⟨b, hearing todo' ++ e, rfl⟩, ?_⟩⟩, ?_⟩
  · -- one byte of what has come can be taken
    intro b' bs'
    refine ⟨RecvRes.ret [b'], ⟨?_, rfl⟩, trivial, List.cons_ne_nil _ _, ⟨bs', rfl⟩⟩
    show [b'].length ≤ bs.length - s.dataRecvd.length
    rw [hlen]
    exact Nat.le_add_left 1 todo'.length
  · rintro res ⟨⟨hperm, hcalm⟩, hallow⟩
    show Live _ (recvIteration bs.length s res) _ _
    cases res with
    | err code =>
        have hc : code = wsaEWouldBlock ∨ code = wsaEInProgress := by
          by_contra hc
          simp [disturbs, hc] at hcalm
        refine lasts_deadline ?_
        show Live _ (if _ then _ else _) _ _
        rw [if_pos hc]
        exact Live.ret ⟨⟨_, htodo, hsplit, rfl⟩, fun hwork => False.elim hwork⟩
    | ret got =>
        cases got with
        | nil => exact Bool.noConfusion hcalm
        | cons g got =>
            have hgot : g :: got <+: b :: todo' := by
              refine hearing_prefix hallow ?_
              rw [← hlen]
              exact hperm
            obtain ⟨rest, hrest⟩ := hgot
            rw [← hrest] at hsplit ⊢
            have hdrop : (hearing (g :: got ++ rest) ++ e).drop ((g :: got).length + 0) =
                hearing rest ++ e := by
              rw [hearing_append, List.append_assoc]
              exact List.drop_left' hearing_length
            show Live _ _ (List.drop ((g :: got).length + 0) _) _
            rw [hdrop]
            -- bytes arrived, so the deadline moves before it is checked
            refine lasts_getTime_none fun now => lasts_deadline ?_
            show Live _ (if _ then _ else _) _ _
            have hsplit' : bs = (s.dataRecvd ++ g :: got) ++ rest := by
              rw [hsplit, List.append_assoc]
            by_cases hmore : (s.dataRecvd ++ g :: got).length < bs.length
            · rw [if_pos hmore]
              refine Live.ret ⟨⟨rest, ?_, hsplit', rfl⟩, fun _ => ?_⟩
              · rintro rfl
                rw [List.append_nil] at hsplit'
                rw [← hsplit'] at hmore
                exact Nat.lt_irrefl _ hmore
              · simp only [List.length_append, hearing_length, List.length_cons]
                omega
            · rw [if_neg hmore]
              have hrest' : rest = [] := by
                refine List.eq_nil_of_length_eq_zero ?_
                have := congrArg List.length hsplit'
                rw [List.length_append] at this
                omega
              subst hrest'
              rw [List.append_nil] at hsplit'
              refine Live.ret (Live.ret ⟨rfl, ?_⟩)
              rw [hsplit']

/-- `readAllSocketData` returns the bytes that come next. -/
theorem follows_readAllSocketData (ref : SuccessRef) {bs : List Byte} (hbs : bs.length < 2 ^ 63)
    (e : List (Turn Byte)) :
    calmWire.Follows (readAllSocketData ref bs.length) (hearing bs ++ e) e
      fun x => x.1.getD [] = bs ∧ x.2 = true := by
  refine lasts_set (lasts_getTime_none fun now => ?_)
  by_cases hn : bs.length < 1
  · rw [if_pos hn]
    have hnil : bs = [] := List.eq_nil_of_length_eq_zero (by omega)
    subst hnil
    exact lasts_set (Live.ret ⟨rfl, rfl, rfl⟩)
  · rw [if_neg hn]
    refine lasts_malloc hbs ?_
    show Lasts ((recvLoop bs.length (now + 10)).bind _) _ _
    have hne : bs ≠ [] := by
      rintro rfl
      exact hn Nat.zero_lt_one
    refine Wiring.Follows.bind (lasts_recvLoop hne _ e) ?_
    rintro _ rfl
    exact Live.ret ⟨rfl, rfl, rfl⟩

/-! ## `sendToSocket` -/

theorem follows_sendToSocket (data : List Byte) (e : List (Turn Byte)) :
    calmWire.Follows (sendToSocket data) (saying data ++ e) e (· = true) := by
  unfold sendToSocket
  by_cases hlen : data.length < 1
  · rw [if_pos hlen]
    have hnil : data = [] := List.eq_nil_of_length_eq_zero (by omega)
    subst hnil
    exact Live.ret ⟨rfl, rfl⟩
  · rw [if_neg hlen]
    refine Live.loop (fun k d => k < data.length ∧ d = saying (data.drop k) ++ e)
      (fun k _ => data.length - k) ⟨by omega, rfl⟩ ?_
    rintro k d ⟨hk, rfl⟩
    have hdrop : (data.drop k).length = data.length - k := List.length_drop
    refine ⟨⟨?_, Or.inl ⟨SendRes.ret (data.drop k).length, ⟨Nat.le_refl _, rfl⟩, ?_, rfl⟩⟩, ?_⟩
    · -- whatever the socket accepts is what comes next
      rintro r -
      refine List.IsPrefix.trans ?_ (List.prefix_append _ _)
      cases r with
      | err code => exact List.nil_prefix
      | ret n => exact (List.take_prefix n _).map Turn.say
    · show 0 < (data.drop k).length
      omega
    · rintro res ⟨⟨hperm, hcalm⟩, -⟩
      show Live _ (sendIteration data k res) _ _
      cases res with
      | err code =>
          have hc : code = wsaEWouldBlock := by
            by_contra hc
            simp [disturbs, hc] at hcalm
          rw [sendIteration, if_pos hc]
          exact Live.ret ⟨⟨hk, rfl⟩, fun hwork => False.elim hwork⟩
      | ret n =>
          have hn : n ≤ (data.drop k).length := hperm
          have hleft : (saying (data.drop k) ++ e).drop (0 + ((data.drop k).take n).length) =
              saying (data.drop (k + n)) ++ e := by
            rw [List.length_take_of_le hn, Nat.zero_add, List.drop_append_of_le_length
              (by rw [saying_length]; exact hn), saying, ← List.map_drop, List.drop_drop, saying]
          show Live _ _ (List.drop (0 + ((data.drop k).take n).length) _) _
          rw [hleft, sendIteration]
          by_cases hmore : k + n < data.length
          · rw [if_pos hmore]
            refine Live.ret ⟨⟨hmore, rfl⟩, fun hwork => ?_⟩
            have hpos : 0 < n := hwork
            show data.length - (k + n) < data.length - k
            omega
          · rw [if_neg hmore]
            have hnil : data.drop (k + n) = [] := List.drop_eq_nil_of_le (by omega)
            rw [hnil]
            exact Live.ret (Live.ret ⟨rfl, rfl⟩)

theorem follows_sendAllocated {size : Nat} (hsize : size < 2 ^ 63) (data : List Byte)
    (e : List (Turn Byte)) :
    calmWire.Follows (sendAllocated size data) (saying data ++ e) e (· = true) :=
  lasts_malloc hsize (follows_sendToSocket data e)

theorem follows_sendAck (e : List (Turn Byte)) :
    calmWire.Follows sendAck (saying ack ++ e) e (· = true) :=
  follows_sendAllocated (by decide) ack e

theorem follows_readAck (e : List (Turn Byte)) :
    calmWire.Follows readAck (hearing ack ++ e) e (· = true) := by
  refine lasts_malloc (by decide) ?_
  show Lasts ((readAllSocketData .loc ack.length).bind _) _ _
  refine Wiring.Follows.bind (follows_readAllSocketData .loc (by decide) e) ?_
  rintro ⟨data, _⟩ ⟨hdata, rfl⟩
  cases data with
  | none => exact absurd hdata (by decide)
  | some d =>
      cases hdata
      exact Live.ret ⟨rfl, beq_self_eq_true _⟩

/-! ## The transfers -/

/-- What the computer says and hears in a read transaction, from the ACK of the code on. -/
def readDialogue (payload : List Byte) : List (Turn Byte) :=
  saying ack ++ (hearing (le32 payload.length) ++ (saying ack ++ hearing payload))

/-- What the computer says and hears in a write transaction. -/
def writeDialogue (data : List Byte) : List (Turn Byte) :=
  saying (le32 data.length) ++ (hearing ack ++ (saying data ++ hearing ack))

theorem follows_internalRead {payload : List Byte} (hlen : payload.length < 2 ^ 31) :
    calmWire.Follows internalRead (readDialogue payload) [] (· = (some payload, true)) := by
  refine lasts_set (Wiring.Follows.bind (follows_sendAck _) ?_)
  rintro _ rfl
  -- the size
  show Lasts ((readAllSocketData .trans (le32 (payload.length : Int)).length).bind _) _ _
  refine Wiring.Follows.bind (follows_readAllSocketData .trans (by rw [le32_length]; decide) _) ?_
  rintro ⟨size, _⟩ ⟨hsize, rfl⟩
  show Lasts (sendAck.bind _) _ _
  refine Wiring.Follows.bind (follows_sendAck _) ?_
  rintro _ rfl
  -- the payload
  have hn : ofLe32 (size.getD []) = payload.length := by
    rw [hsize, ofLe32_le32_natCast hlen]
  have hto : toSizeT (ofLe32 (size.getD [])) = payload.length := by
    rw [hn, toSizeT]
    omega
  show Lasts ((readAllSocketData .trans (toSizeT (ofLe32 (size.getD [])))).bind _) _ _
  rw [hto, ← List.append_nil (hearing payload)]
  refine Wiring.Follows.bind (follows_readAllSocketData .trans (by omega) []) ?_
  rintro ⟨message, _⟩ ⟨hmessage, rfl⟩
  refine Live.ret ⟨rfl, ?_⟩
  show (some ((message.getD []).take (ofLe32 (size.getD [])).toNat), true) = _
  rw [hmessage, hn, Int.toNat_natCast, List.take_length]

theorem follows_andThen {p : Job Bool} {d e : List (Turn Byte)}
    (h : calmWire.Follows p d e (· = true)) : calmWire.Follows (andThen true p) d e (· = true) := by
  refine Wiring.Follows.bind h ?_
  rintro _ rfl
  exact lasts_set (Live.ret ⟨rfl, rfl⟩)

theorem follows_internalWrite (data : List Byte) :
    calmWire.Follows (internalWrite data) (writeDialogue data) [] (· = (none, true)) := by
  refine lasts_set (Wiring.Follows.bind (follows_andThen (follows_sendToSocket _ _)) ?_)
  rintro _ rfl
  refine Wiring.Follows.bind (follows_andThen (follows_readAck _)) ?_
  rintro _ rfl
  refine Wiring.Follows.bind (follows_andThen (follows_sendToSocket data _)) ?_
  rintro _ rfl
  show Lasts ((andThen true readAck).bind _) (hearing ack) _
  rw [← List.append_nil (hearing ack)]
  refine Wiring.Follows.bind (follows_andThen (follows_readAck _)) ?_
  rintro _ rfl
  exact Live.ret ⟨rfl, rfl⟩

/-! ## A transaction -/

/-- The job the computer runs for a transaction; `data` is what it has to send. -/
def Transaction.transfer (data : List Byte) : Transaction → Job (Option (List Byte) × Bool)
  | read _ _ _ _ => internalRead
  | write _ _ => internalWrite data

/-- What the computer says and hears in a transaction, once its code has been read. -/
def Transaction.dialogue (data : List Byte) : Transaction → List (Turn Byte)
  | read _ payload _ _ => readDialogue payload
  | write _ _ => writeDialogue data

/-- What a transfer returns if nothing goes wrong. -/
def Transaction.outcome : Transaction → Option (List Byte) × Bool
  | read _ payload _ _ => (some payload, true)
  | write _ _ => (none, true)

theorem Transaction.follows_transfer (t : Transaction) (data : List Byte) :
    calmWire.Follows (t.transfer data) (t.dialogue data) [] (· = t.outcome) := by
  cases t with
  | read code payload hcode hsize => exact follows_internalRead hsize
  | write code hcode => exact follows_internalWrite data

/-- The computer at the start of a transfer, and the tablet with the conversation before it. -/
def Transaction.opening (t : Transaction) (data : List Byte) :
    Exchange winsock (Option (List Byte) × Bool) Byte :=
  .start (t.transfer data) (t.dialogue data)

/-- The ACK of the code is held up, and then goes out one byte at a time. -/
def ackHeldUp : List (Move winsock Byte) :=
  [.call ⟨Call.setSuccess true, ()⟩, .call ⟨Call.malloc 3, true⟩,
    .call ⟨Call.send ack, SendRes.err wsaEWouldBlock⟩, .call ⟨Call.send ack, SendRes.ret 1⟩,
    .listens [65]]

/-- Whether a move is one in which nothing goes wrong. -/
def calmMove : Move winsock Byte → Bool
  | .call e => decide (Permitted e.1 e.2) && !disturbs e.1 e.2
  | _ => true

end ScoutComputer
