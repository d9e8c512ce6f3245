import ScoutComputer.Bluetooth.Transfer

/-!
# What the communication routines do to the wire

Every routine is specified by the bytes it takes from the socket and the bytes
the socket accepts from it, whatever the chunking, the clock and the allocator
do. The ghost flag `clean` says that nothing has gone wrong yet: no deadline has
passed, no allocation has failed, the peer has not hung up and Winsock has
reported nothing worse than "try again". A routine that fails has seen `clean`
go down.
-/

namespace ScoutComputer

open Interact Endian

/-- What is remembered of a run: bytes taken, bytes given, and whether all went well. -/
structure Wire where
  inp : List Byte
  out : List Byte
  clean : Bool

/-- The wire before anything happened. -/
def Wire.init : Wire := ⟨[], [], true⟩

/-- A result after which a transfer cannot succeed. -/
def disturbs : (c : Call) → c.Res → Bool
  | .malloc _, ok => !ok
  | .getTime (some timeoutTime), now => decide (timeoutTime < (show Rat from now))
  | .recv _, .ret [] => true
  | .recv _, .err code => !(code = wsaEWouldBlock ∨ code = wsaEInProgress)
  | .send _, .err code => !(code = wsaEWouldBlock)
  | _, _ => false

def Wire.next (o : Wire) (c : Call) (r : c.Res) : Wire where
  inp := o.inp ++ taken c r
  out := o.out ++ given c r
  clean := o.clean && !disturbs c r

/--
What the surroundings may answer: `recv` never returns more than it was asked
for, `send` never accepts more than it was offered, and no allocation of `2^63`
bytes or more succeeds.
-/
def Permitted : (c : Call) → c.Res → Prop
  | .malloc size, ok => 2 ^ 63 ≤ size → ok = false
  | .recv len, .ret bs => bs.length ≤ len
  | .send data, .ret n => n ≤ data.length
  | _, _ => True

/-- The observer of the wire. -/
def wire : Observer winsock Wire where
  allow _ c r := Permitted c r
  next := Wire.next

/-! ## One call -/

theorem call_spec {α : Type} {c : Call} {k : c.Res → Job α} {o : Wire} {inv : Wire → Prop}
    {post : Wire → α → Prop} (hi : inv o)
    (h : ∀ r : c.Res, Permitted c r → Spec wire (k r) (o.next c r) inv post) :
    Spec wire (Prog.call (I := winsock) c k) o inv post := Spec.call hi h

/-- Something went wrong. -/
def Wire.dirty (o : Wire) : Wire := { o with clean := false }

/-- `bs` were taken from the socket. -/
def Wire.take (o : Wire) (bs : List Byte) : Wire := { o with inp := o.inp ++ bs }

/-- The socket accepted `bs`. -/
def Wire.give (o : Wire) (bs : List Byte) : Wire := { o with out := o.out ++ bs }

section
variable (o : Wire) (bs : List Byte)

@[simp] theorem Wire.dirty_inp : o.dirty.inp = o.inp := rfl
@[simp] theorem Wire.dirty_out : o.dirty.out = o.out := rfl
@[simp] theorem Wire.dirty_clean : o.dirty.clean = false := rfl
@[simp] theorem Wire.take_inp : (o.take bs).inp = o.inp ++ bs := rfl
@[simp] theorem Wire.take_out : (o.take bs).out = o.out := rfl
@[simp] theorem Wire.take_clean : (o.take bs).clean = o.clean := rfl
@[simp] theorem Wire.give_inp : (o.give bs).inp = o.inp := rfl
@[simp] theorem Wire.give_out : (o.give bs).out = o.out ++ bs := rfl
@[simp] theorem Wire.give_clean : (o.give bs).clean = o.clean := rfl

end

section
variable (o : Wire)

/-- A call that moves no byte and disturbs nothing leaves the wire alone. -/
theorem next_eq_self {c : Call} {r : c.Res} (ht : taken c r = []) (hg : given c r = [])
    (hd : disturbs c r = false) : o.next c r = o := by
  simp [Wire.next, ht, hg, hd]

/-- A call that moves no byte but disturbs. -/
theorem next_eq_dirty {c : Call} {r : c.Res} (ht : taken c r = []) (hg : given c r = [])
    (hd : disturbs c r = true) : o.next c r = o.dirty := by
  simp [Wire.next, Wire.dirty, ht, hg, hd]

theorem next_setSuccess (b : Bool) (u : Unit) : o.next (.setSuccess b) u = o :=
  next_eq_self o rfl rfl rfl

theorem next_getTime_none (now : Rat) : o.next (.getTime none) now = o :=
  next_eq_self o rfl rfl rfl

theorem next_malloc (n : Nat) (ok : Bool) :
    o.next (.malloc n) ok = if ok then o else o.dirty := by
  cases ok
  · exact next_eq_dirty o rfl rfl rfl
  · exact next_eq_self o rfl rfl rfl

theorem next_getTime_some (timeoutTime now : Rat) :
    o.next (.getTime (some timeoutTime)) now = if timeoutTime < now then o.dirty else o := by
  split
  · rename_i h
    exact next_eq_dirty o rfl rfl (decide_eq_true h)
  · rename_i h
    exact next_eq_self o rfl rfl (decide_eq_false h)

theorem next_recv_closed (n : Nat) : o.next (.recv n) (RecvRes.ret []) = o.dirty :=
  next_eq_dirty o rfl rfl rfl

theorem next_recv_cons (n : Nat) (b : Byte) (bs : List Byte) :
    o.next (.recv n) (RecvRes.ret (b :: bs)) = o.take (b :: bs) := by
  simp [Wire.next, Wire.take, taken, given, disturbs]

theorem next_recv_err (n : Nat) (code : Int) :
    o.next (.recv n) (RecvRes.err code) =
      if code = wsaEWouldBlock ∨ code = wsaEInProgress then o else o.dirty := by
  split
  · rename_i h
    exact next_eq_self o rfl rfl (by simp [disturbs, h])
  · rename_i h
    exact next_eq_dirty o rfl rfl (by simp [disturbs, h])

theorem next_send_ret (data : List Byte) (n : Nat) :
    o.next (.send data) (SendRes.ret n) = o.give (data.take n) := by
  simp [Wire.next, Wire.give, taken, given, disturbs]

theorem next_send_err (data : List Byte) (code : Int) :
    o.next (.send data) (SendRes.err code) = if code = wsaEWouldBlock then o else o.dirty := by
  split
  · rename_i h
    exact next_eq_self o rfl rfl (by simp [disturbs, h])
  · rename_i h
    exact next_eq_dirty o rfl rfl (by simp [disturbs, h])

end

section
variable {α : Type} {o : Wire} {inv : Wire → Prop} {post : Wire → α → Prop} (hi : inv o)
include hi

theorem setSuccess_spec {b : Bool} {f : Unit → Job α} (h : Spec wire (f ()) o inv post) :
    Spec wire ((setSuccess b).bind f) o inv post := by
  refine call_spec hi fun u _ => ?_
  rw [next_setSuccess]
  exact h

theorem set_spec {ref : SuccessRef} {b : Bool} {f : Unit → Job α}
    (h : Spec wire (f ()) o inv post) : Spec wire ((ref.set b).bind f) o inv post := by
  cases ref with
  | loc => exact h
  | trans => exact setSuccess_spec hi h

theorem getTime_none_spec {f : Rat → Job α} (h : ∀ now, Spec wire (f now) o inv post) :
    Spec wire ((getTime none).bind f) o inv post := by
  refine call_spec hi fun now _ => ?_
  rw [next_getTime_none]
  exact h now

theorem getTime_some_spec {timeoutTime : Rat} {f : Rat → Job α}
    (hlate : ∀ now, timeoutTime < now → Spec wire (f now) o.dirty inv post)
    (h : ∀ now, ¬ timeoutTime < now → Spec wire (f now) o inv post) :
    Spec wire ((getTime (some timeoutTime)).bind f) o inv post := by
  refine call_spec hi fun now _ => ?_
  rw [next_getTime_some]
  split
  · rename_i hnow
    exact hlate now hnow
  · rename_i hnow
    exact h now hnow

theorem malloc_spec {n : Nat} {f : Bool → Job α} (hfail : Spec wire (f false) o.dirty inv post)
    (h : n < 2 ^ 63 → Spec wire (f true) o inv post) :
    Spec wire ((malloc n).bind f) o inv post := by
  refine call_spec hi fun ok hok => ?_
  rw [next_malloc]
  cases ok with
  | false => exact hfail
  | true => exact h (Nat.lt_of_not_le fun hn => Bool.noConfusion (hok hn))

end

/-! ## `readAllSocketData` -/

/-- `o'` is `o` after taking `r` and giving `s`. -/
structure Wire.Moved (o o' : Wire) (r s : List Byte) : Prop where
  inp : o'.inp = o.inp ++ r
  out : o'.out = o.out ++ s

theorem Wire.Moved.refl (o : Wire) : Wire.Moved o o [] [] := ⟨by simp, by simp⟩

theorem Wire.Moved.trans {o o₁ o₂ : Wire} {r₁ s₁ r₂ s₂ : List Byte}
    (h₁ : Wire.Moved o o₁ r₁ s₁) (h₂ : Wire.Moved o₁ o₂ r₂ s₂) :
    Wire.Moved o o₂ (r₁ ++ r₂) (s₁ ++ s₂) :=
  ⟨by rw [h₂.inp, h₁.inp, List.append_assoc], by rw [h₂.out, h₁.out, List.append_assoc]⟩

theorem Wire.Moved.dirty {o o' : Wire} {r s : List Byte} (h : Wire.Moved o o' r s) :
    Wire.Moved o o'.dirty r s := ⟨h.inp, h.out⟩

/-- While `n` bytes are being read, at most that many have been taken. -/
def Reading (n : Nat) (o o' : Wire) : Prop := ∃ d, Wire.Moved o o' d [] ∧ d.length ≤ n

theorem Reading.refl (n : Nat) (o : Wire) : Reading n o o := ⟨[], .refl o, Nat.zero_le n⟩

theorem Reading.dirty {n : Nat} {o o' : Wire} (h : Reading n o o') : Reading n o o'.dirty :=
  let ⟨d, hm, hd⟩ := h
  ⟨d, hm.dirty, hd⟩

/-- What `readAllSocketData` and its loop establish. -/
def ReadDone (n : Nat) (o o' : Wire) : Option (List Byte) → Prop
  | none => Reading n o o' ∧ o'.clean = false
  | some d => Wire.Moved o o' d [] ∧ d.length = n

/-- The deadline check of an iteration, before what was received is looked at. -/
theorem deadline_spec {n : Nat} {o o' : Wire} {timeoutTime : Rat}
    {f : Job (RecvLoop ⊕ Option (List Byte))} {post : Wire → RecvLoop ⊕ Option (List Byte) → Prop}
    (hr : Reading n o o')
    (hlate : ∀ o', Reading n o o' → o'.clean = false → post o' (.inr none))
    (hf : Spec wire f o' (Reading n o) post) :
    Spec wire ((getTime (some timeoutTime)).bind fun now =>
      if now > timeoutTime then .ret (.inr none) else f) o' (Reading n o) post := by
  refine getTime_some_spec hr (fun now hnow => ?_) (fun now hnow => ?_)
  · rw [if_pos hnow]
    exact Spec.ret hr.dirty (hlate _ hr.dirty rfl)
  · rw [if_neg hnow]
    exact hf

theorem recvLoop_spec {n : Nat} (hn : 0 < n) (timeoutTime : Rat) (o : Wire) :
    Spec wire (recvLoop n timeoutTime) o (Reading n o) (ReadDone n o) := by
  refine Spec.loop (fun s o' => Wire.Moved o o' s.dataRecvd [] ∧ s.dataRecvd.length < n)
    ⟨.refl o, hn⟩ ?_
  rintro s o' ⟨hm, hlt⟩
  have hr : Reading n o o' := ⟨_, hm, Nat.le_of_lt hlt⟩
  refine ⟨hr, fun res hres => ?_⟩
  have hfail : ∀ o'', Reading n o o'' → o''.clean = false →
      Spec wire (.ret none) o'' (Reading n o) (ReadDone n o) :=
    fun o'' h hc => Spec.ret h ⟨h, hc⟩
  show Spec wire (recvIteration n s res) (o'.next (.recv _) res) _ _
  cases res with
  | err code =>
      rw [next_recv_err]
      refine deadline_spec ?_ hfail ?_
      · split
        · exact hr
        · exact hr.dirty
      · by_cases hc : code = wsaEWouldBlock ∨ code = wsaEInProgress
        · rw [if_pos hc]
          show Spec wire (if _ then _ else _) _ _ _
          rw [if_pos hc]
          exact Spec.ret hr ⟨hm, hlt⟩
        · rw [if_neg hc]
          show Spec wire (if _ then _ else _) _ _ _
          rw [if_neg hc]
          exact Spec.ret hr.dirty (hfail _ hr.dirty rfl)
  | ret bs =>
      cases bs with
      | nil =>
          rw [next_recv_closed]
          exact deadline_spec hr.dirty hfail (Spec.ret hr.dirty (hfail _ hr.dirty rfl))
      | cons b bs =>
          have hlen : (b :: bs).length ≤ n - s.dataRecvd.length := hres
          have hm' : Wire.Moved o (o'.take (b :: bs)) (s.dataRecvd ++ b :: bs) [] :=
            hm.trans ⟨rfl, by simp⟩
          have hr' : Reading n o (o'.take (b :: bs)) :=
            ⟨_, hm', by rw [List.length_append]; omega⟩
          rw [next_recv_cons]
          -- bytes arrived, so the deadline moves before it is checked
          refine getTime_none_spec hr' fun now => deadline_spec hr' hfail ?_
          show Spec wire (if _ then _ else _) _ _ _
          by_cases hmore : (s.dataRecvd ++ b :: bs).length < n
          · rw [if_pos hmore]
            exact Spec.ret hr' ⟨hm', hmore⟩
          · rw [if_neg hmore]
            refine Spec.ret hr' (Spec.ret hr' ⟨hm', ?_⟩)
            rw [List.length_append] at hmore ⊢
            omega

/-- How a call of `readAllSocketData` ends. -/
inductive ReadResult (n : Nat) (o o' : Wire) : Option (List Byte) × Bool → Prop where
  | done {data : Option (List Byte)} : Wire.Moved o o' (data.getD []) [] →
      (data.getD []).length = n → n < 2 ^ 63 → ReadResult n o o' (data, true)
  | failed : Reading n o o' → o'.clean = false → ReadResult n o o' (none, false)

theorem readAllSocketData_spec (ref : SuccessRef) (n : Nat) (o : Wire) :
    Spec wire (readAllSocketData ref n) o (Reading n o) (ReadResult n o) := by
  have h0 := Reading.refl n o
  refine set_spec h0 (getTime_none_spec h0 fun now => ?_)
  by_cases hn : n < 1
  · rw [if_pos hn]
    refine set_spec h0 (Spec.ret h0 (.done (.refl o) ?_ ?_))
    · show 0 = n
      omega
    · omega
  · rw [if_neg hn]
    refine malloc_spec h0 ?_ fun hsize => ?_
    · exact set_spec h0.dirty (Spec.ret h0.dirty (.failed h0.dirty rfl))
    · show Spec wire ((recvLoop n (now + 10)).bind _) o _ _
      refine Spec.bind (recvLoop_spec (by omega) _ o) fun o' data hdata => ?_
      cases data with
      | none => exact set_spec hdata.1 (Spec.ret hdata.1 (.failed hdata.1 hdata.2))
      | some d =>
          exact Spec.ret ⟨d, hdata.1, Nat.le_of_eq hdata.2⟩ (.done hdata.1 hdata.2 hsize)

/-! ## `sendToSocket` -/

/-- While `data` is being sent, a prefix of it has been accepted. -/
def Sending (data : List Byte) (o o' : Wire) : Prop := ∃ s, s <+: data ∧ Wire.Moved o o' [] s

theorem Sending.refl (data : List Byte) (o : Wire) : Sending data o o :=
  ⟨[], List.nil_prefix, .refl o⟩

theorem Sending.dirty {data : List Byte} {o o' : Wire} (h : Sending data o o') :
    Sending data o o'.dirty :=
  let ⟨s, hs, hm⟩ := h
  ⟨s, hs, hm.dirty⟩

/-- How a call of `sendToSocket` ends. -/
inductive SendResult (data : List Byte) (o o' : Wire) : Bool → Prop where
  | done : Wire.Moved o o' [] data → SendResult data o o' true
  | failed : Sending data o o' → o'.clean = false → SendResult data o o' false

theorem sendToSocket_spec (data : List Byte) (o : Wire) :
    Spec wire (sendToSocket data) o (Sending data o) (SendResult data o) := by
  unfold sendToSocket
  by_cases hlen : data.length < 1
  · rw [if_pos hlen]
    have hnil : data = [] := List.length_eq_zero_iff.mp (by omega)
    subst hnil
    exact Spec.ret (.refl _ o) (.done (.refl o))
  · rw [if_neg hlen]
    refine Spec.loop (fun k o' => k < data.length ∧ Wire.Moved o o' [] (data.take k))
      ⟨by omega, .refl o⟩ ?_
    rintro k o' ⟨hk, hm⟩
    have hs : Sending data o o' := ⟨_, List.take_prefix k data, hm⟩
    refine ⟨hs, fun res hres => ?_⟩
    show Spec wire (sendIteration data k res) (o'.next (.send _) res) _ _
    cases res with
    | err code =>
        rw [next_send_err]
        by_cases hc : code = wsaEWouldBlock
        · rw [if_pos hc, sendIteration, if_pos hc]
          exact Spec.ret hs ⟨hk, hm⟩
        · rw [if_neg hc, sendIteration, if_neg hc]
          exact Spec.ret hs.dirty (Spec.ret hs.dirty (.failed hs.dirty rfl))
    | ret n =>
        have hn : n ≤ (data.drop k).length := hres
        rw [List.length_drop] at hn
        have hm' : Wire.Moved o (o'.give ((data.drop k).take n)) [] (data.take (k + n)) := by
          rw [List.take_add]
          exact hm.trans ⟨by simp, rfl⟩
        have hs' : Sending data o (o'.give ((data.drop k).take n)) :=
          ⟨_, List.take_prefix (k + n) data, hm'⟩
        rw [next_send_ret, sendIteration]
        by_cases hmore : k + n < data.length
        · rw [if_pos hmore]
          exact Spec.ret hs' ⟨hmore, hm'⟩
        · rw [if_neg hmore]
          have hall : data.take (k + n) = data := List.take_of_length_le (by omega)
          rw [hall] at hm'
          exact Spec.ret hs' (Spec.ret hs' (.done hm'))

theorem sendAllocated_spec (size : Nat) (data : List Byte) (o : Wire) :
    Spec wire (sendAllocated size data) o (Sending data o) (SendResult data o) := by
  have h0 := Sending.refl data o
  exact malloc_spec h0 (Spec.ret h0.dirty (.failed h0.dirty rfl))
    fun _ => sendToSocket_spec data o

theorem sendAck_spec (o : Wire) :
    Spec wire sendAck o (Sending ack o) (SendResult ack o) := sendAllocated_spec _ _ o

theorem sendNack_spec (o : Wire) :
    Spec wire sendNack o (Sending nack o) (SendResult nack o) := sendAllocated_spec _ _ o

/-! ## `readAck` -/

/-- How a call of `readAck` ends. -/
inductive AckResult (o o' : Wire) : Bool → Prop where
  | acked : Wire.Moved o o' ack [] → AckResult o o' true
  | refused {d : List Byte} : Wire.Moved o o' d [] → d.length = 3 → d ≠ ack → AckResult o o' false
  | failed : Reading 3 o o' → o'.clean = false → AckResult o o' false

theorem readAck_spec (o : Wire) : Spec wire readAck o (Reading 3 o) (AckResult o) := by
  have h0 := Reading.refl 3 o
  refine malloc_spec h0 (Spec.ret h0.dirty (.failed h0.dirty rfl)) fun _ => ?_
  show Spec wire ((readAllSocketData .loc btTabAckSize).bind _) o _ _
  refine Spec.bind (readAllSocketData_spec .loc 3 o) ?_
  rintro o' _ (@⟨data, hm, hlen, hsize⟩ | ⟨hr, hc⟩)
  · refine Spec.ret ⟨_, hm, Nat.le_of_eq hlen⟩ ?_
    cases data with
    | none => exact absurd hlen (by decide)
    | some d =>
        show AckResult o o' (some d == some ack)
        by_cases hd : d = ack
        · subst hd
          rw [beq_self_eq_true]
          exact .acked hm
        · rw [beq_eq_false_iff_ne.mpr fun h => hd (Option.some.inj h)]
          exact .refused hm hlen hd
  · exact Spec.ret hr (.failed hr hc)

/-! ## `internalRead` -/

/--
How far a read transfer has come while nothing has gone wrong: the bytes `r`
taken so far and the bytes `s` given so far.
-/
inductive ReadProgress : List Byte → List Byte → Prop where
  /-- The ACK of the transaction code is going out. -/
  | leading {s : List Byte} : s <+: ack → ReadProgress [] s
  /-- The size is coming in. -/
  | size {r : List Byte} : r.length ≤ 4 → ReadProgress r ack
  /-- The ACK of the size is going out. -/
  | sizeAck {r s : List Byte} : r.length = 4 → s <+: ack → ReadProgress r (ack ++ s)
  /-- The payload is coming in. -/
  | payload {size d : List Byte} : size.length = 4 → d.length ≤ toSizeT (ofLe32 size) →
      ReadProgress (size ++ d) (ack ++ ack)

/-- The invariant of a read transfer that started at `o`. -/
def ReadInv (o o' : Wire) : Prop :=
  ∃ r s, Wire.Moved o o' r s ∧ (o'.clean = true → ReadProgress r s)

/-- How a read transfer ends: the vector it returns and its success flag. -/
inductive ReadOutcome (o o' : Wire) : Option (List Byte) × Bool → Prop where
  | done {size payload : List Byte} : Wire.Moved o o' (size ++ payload) (ack ++ ack) →
      size.length = 4 → ofLe32 size = payload.length → ReadOutcome o o' (some payload, true)
  | failed : o'.clean = false → ReadOutcome o o' (some [], false)

theorem ReadInv.of_dirty {o o' : Wire} {r s : List Byte} (hm : Wire.Moved o o' r s)
    (hc : o'.clean = false) : ReadInv o o' :=
  ⟨r, s, hm, fun h => by rw [hc] at h; exact Bool.noConfusion h⟩

/-- The flag `clean` never comes back up. -/
theorem clean_spec {α : Type} (p : Job α) {o : Wire} (hc : o.clean = false) :
    Spec wire p o (fun o' => o'.clean = false) (fun _ _ => True) := by
  intro n
  induction n generalizing p o with
  | zero => trivial
  | succ n ih =>
      refine ⟨hc, ?_⟩
      cases p.resume with
      | inl a => trivial
      | inr ck => exact fun r _ => ih (ck.2 r) (by simp [wire, Wire.next, hc])

/-- A NACK goes out only after something has gone wrong, and changes nothing then. -/
theorem sendNack_bind_spec {α : Type} {o₀ o : Wire} {r s : List Byte}
    (hm : Wire.Moved o₀ o r s) (hc : o.clean = false) {f : Bool → Job α}
    {post : Wire → α → Prop}
    (hf : ∀ o' b, ReadInv o₀ o' → o'.clean = false → Spec wire (f b) o' (ReadInv o₀) post) :
    Spec wire (sendNack.bind f) o (ReadInv o₀) post := by
  have hkeep : ∀ o', Sending nack o o' ∧ o'.clean = false → ReadInv o₀ o' := by
    rintro o' ⟨⟨n, _, hn⟩, hc'⟩
    exact .of_dirty (hm.trans hn) hc'
  have hspec : Spec wire sendNack o (ReadInv o₀) fun o' _ => ReadInv o₀ o' ∧ o'.clean = false :=
    ((sendNack_spec o).and (clean_spec sendNack hc)).mono hkeep
      fun o' _ hinv _ => ⟨hkeep o' hinv, hinv.2⟩
  exact Spec.bind hspec fun o' b h => hf o' b h.1 h.2

/-- The tail of every failing exit: the flag is lowered and nothing is returned. -/
theorem readFail_spec {o₀ o : Wire} (hi : ReadInv o₀ o) (hc : o.clean = false) :
    Spec wire ((SuccessRef.trans.set false).bind fun _ => .ret (some [], false)) o (ReadInv o₀)
      (ReadOutcome o₀) :=
  set_spec hi (Spec.ret hi (.failed hc))

theorem internalRead_spec (o : Wire) :
    Spec wire internalRead o (ReadInv o) (ReadOutcome o) := by
  have hi0 : ReadInv o o := ⟨[], [], .refl o, fun _ => .leading List.nil_prefix⟩
  refine set_spec hi0 ?_
  -- the ACK of the transaction code
  have hack0 : ∀ o₁, Sending ack o o₁ → ReadInv o o₁ :=
    fun o₁ ⟨s, hs, hm⟩ => ⟨[], s, hm, fun _ => .leading hs⟩
  refine Spec.bind ((sendAck_spec o).mono hack0 fun _ _ _ h => h) ?_
  rintro o₁ _ (hm₁ | ⟨hs, hc⟩)
  swap
  · exact readFail_spec (hack0 o₁ hs) hc
  -- the size
  have hsize : ∀ o₂, Reading 4 o₁ o₂ → ReadInv o o₂ :=
    fun o₂ ⟨d, hm, hd⟩ => ⟨d, ack, hm₁.trans hm, fun _ => .size hd⟩
  show Spec wire ((readAllSocketData .trans btExpectedDataReadsize).bind _) o₁ _ _
  refine Spec.bind ((readAllSocketData_spec .trans 4 o₁).mono hsize fun _ _ _ h => h) ?_
  rintro o₂ _ (@⟨data, hm, hlen, _⟩ | ⟨⟨d, hm, _⟩, hc⟩)
  swap
  · exact sendNack_bind_spec (hm₁.trans hm) hc fun o' _ h hc' => readFail_spec h hc'
  have hm₂ : Wire.Moved o o₂ (data.getD []) ack := hm₁.trans hm
  -- the ACK of the size
  have hack2 : ∀ o₃, Sending ack o₂ o₃ → ReadInv o o₃ := by
    rintro o₃ ⟨s, hs, hm⟩
    refine ⟨data.getD [], ack ++ s, ?_, fun _ => .sizeAck hlen hs⟩
    have := hm₂.trans hm
    rwa [List.append_nil] at this
  refine Spec.bind ((sendAck_spec o₂).mono hack2 fun _ _ _ h => h) ?_
  rintro o₃ _ (hm | ⟨hs, hc⟩)
  swap
  · exact readFail_spec (hack2 o₃ hs) hc
  have hm₃ : Wire.Moved o o₃ (data.getD []) (ack ++ ack) := by
    have := hm₂.trans hm
    rwa [List.append_nil] at this
  -- the payload
  have hbody : ∀ o₄, Reading (toSizeT (ofLe32 (data.getD []))) o₃ o₄ → ReadInv o o₄ :=
    fun o₄ ⟨d, hm, hd⟩ => ⟨data.getD [] ++ d, ack ++ ack, hm₃.trans hm, fun _ => .payload hlen hd⟩
  show Spec wire ((readAllSocketData .trans (toSizeT (ofLe32 (data.getD [])))).bind _) o₃ _ _
  refine Spec.bind ((readAllSocketData_spec .trans _ o₃).mono hbody fun _ _ _ h => h) ?_
  rintro o₄ _ (@⟨msg, hm, hlen', hlt⟩ | ⟨⟨d, hm, _⟩, hc⟩)
  swap
  · exact sendNack_bind_spec (hm₃.trans hm) hc fun o' _ h hc' => Spec.ret h (.failed hc')
  -- a negative size would have been an impossible allocation
  have hlo := le_ofLe32 (data.getD [])
  have hhi := ofLe32_lt (data.getD [])
  have hn : ofLe32 (data.getD []) = (msg.getD []).length := by
    rw [hlen']
    unfold toSizeT at hlt ⊢
    omega
  have htake : (msg.getD []).take (ofLe32 (data.getD [])).toNat = msg.getD [] := by
    rw [hn, Int.toNat_natCast, List.take_length]
  show Spec wire (.ret (some ((msg.getD []).take _), true)) o₄ _ _
  rw [htake]
  exact Spec.ret (hbody o₄ ⟨_, hm, Nat.le_of_eq hlen'⟩) (.done (hm₃.trans hm) hlen hn)

/-! ## `internalWrite` -/

/-- How far a write transfer of `data`, announced by the bytes `size`, has come. -/
inductive WriteProgress (size data : List Byte) : List Byte → List Byte → Prop where
  | size {s : List Byte} : s <+: size → WriteProgress size data [] s
  | sizeAck {r : List Byte} : r.length ≤ 3 → WriteProgress size data r size
  | data {s : List Byte} : s <+: data → WriteProgress size data ack (size ++ s)
  | dataAck {r : List Byte} : r.length ≤ 3 → WriteProgress size data (ack ++ r) (size ++ data)

theorem WriteProgress.isPrefix {size data r s : List Byte} (h : WriteProgress size data r s) :
    s <+: size ++ data := by
  cases h with
  | size hs => exact hs.trans (List.prefix_append size data)
  | sizeAck hr => exact List.prefix_append size data
  | data hs => exact (List.prefix_append_right_inj size).mpr hs
  | dataAck hr => exact List.prefix_refl _

/-- The invariant of a write transfer that started at `o`. -/
def WriteInv (data : List Byte) (o o' : Wire) : Prop :=
  ∃ r s, Wire.Moved o o' r s ∧ WriteProgress (le32 data.length) data r s

/-- How a write transfer ends. -/
inductive WriteOutcome (data : List Byte) (o o' : Wire) : Option (List Byte) × Bool → Prop where
  | done : Wire.Moved o o' (ack ++ ack) (le32 data.length ++ data) →
      WriteOutcome data o o' (none, true)
  /-- Three bytes came where an ACK was due, and they were something else. -/
  | refused {r d s : List Byte} : Wire.Moved o o' (r ++ d) s → d.length = 3 → d ≠ ack →
      r = [] ∨ r = ack → WriteOutcome data o o' (none, false)
  | failed : o'.clean = false → WriteOutcome data o o' (none, false)

theorem andThen_true_spec {p : Job Bool} {o : Wire} {inv : Wire → Prop}
    {post : Wire → Bool → Prop} (h : Spec wire p o inv post) :
    Spec wire (andThen true p) o inv post := by
  have h' : Spec wire p o inv fun o' b => inv o' ∧ post o' b :=
    h.mono (fun _ hi => hi) fun _ _ hi hp => ⟨hi, hp⟩
  refine Spec.bind h' fun o' b hb => ?_
  exact set_spec hb.1 (Spec.ret hb.1 hb.2)

/-- One step of `success = (success && p())` after which only the last flag matters. -/
theorem andThen_bind_false_spec {α : Type} {p : Job Bool} {o : Wire} {inv : Wire → Prop}
    {f : Bool → Job α} {post : Wire → α → Prop} (hi : inv o)
    (h : Spec wire (f false) o inv post) : Spec wire ((andThen false p).bind f) o inv post := by
  show Spec wire ((SuccessRef.trans.set false).bind fun _ => f false) o inv post
  exact set_spec hi h

theorem internalWrite_spec (data : List Byte) (o : Wire) :
    Spec wire (internalWrite data) o (WriteInv data o) (WriteOutcome data o) := by
  have hi0 : WriteInv data o o := ⟨[], [], .refl o, .size List.nil_prefix⟩
  refine set_spec hi0 ?_
  -- the size
  have hsize : ∀ o₁, Sending (le32 data.length) o o₁ → WriteInv data o o₁ :=
    fun o₁ ⟨s, hs, hm⟩ => ⟨[], s, hm, .size hs⟩
  refine Spec.bind (andThen_true_spec
    ((sendToSocket_spec _ o).mono hsize fun _ _ _ h => h)) fun o₁ b h₁ => ?_
  cases h₁ with
  | failed hs hc =>
      exact andThen_bind_false_spec (hsize o₁ hs) (Spec.ret (hsize o₁ hs) (.failed hc))
  | done hm₁ =>
  -- its ACK
  have hack1 : ∀ o₂, Reading 3 o₁ o₂ → WriteInv data o o₂ := by
    intro o₂ ⟨d, hm, hd⟩
    refine ⟨d, le32 data.length, ?_, .sizeAck hd⟩
    have := hm₁.trans hm
    rwa [List.nil_append, List.append_nil] at this
  refine Spec.bind (andThen_true_spec
    ((readAck_spec o₁).mono hack1 fun _ _ _ h => h)) fun o₂ b h₂ => ?_
  cases h₂ with
  | failed hr hc => exact Spec.ret (hack1 o₂ hr) (.failed hc)
  | refused hm hlen hne =>
      exact Spec.ret (hack1 o₂ ⟨_, hm, Nat.le_of_eq hlen⟩)
        (.refused (hm₁.trans hm) hlen hne (Or.inl rfl))
  | acked hm =>
  have hm₂ : Wire.Moved o o₂ ack (le32 data.length) := by
    have := hm₁.trans hm
    rwa [List.nil_append, List.append_nil] at this
  -- the data
  have hdata : ∀ o₃, Sending data o₂ o₃ → WriteInv data o o₃ := by
    intro o₃ ⟨s, hs, hm⟩
    refine ⟨ack, le32 data.length ++ s, ?_, .data hs⟩
    have := hm₂.trans hm
    rwa [List.append_nil] at this
  refine Spec.bind (andThen_true_spec
    ((sendToSocket_spec data o₂).mono hdata fun _ _ _ h => h)) fun o₃ b h₃ => ?_
  cases h₃ with
  | failed hs hc =>
      exact andThen_bind_false_spec (hdata o₃ hs) (Spec.ret (hdata o₃ hs) (.failed hc))
  | done hm =>
  have hm₃ : Wire.Moved o o₃ ack (le32 data.length ++ data) := by
    have := hm₂.trans hm
    rwa [List.append_nil] at this
  -- its ACK
  have hack2 : ∀ o₄, Reading 3 o₃ o₄ → WriteInv data o o₄ := by
    intro o₄ ⟨d, hm, hd⟩
    refine ⟨ack ++ d, le32 data.length ++ data, ?_, .dataAck hd⟩
    have := hm₃.trans hm
    rwa [List.append_nil] at this
  refine Spec.bind (andThen_true_spec
    ((readAck_spec o₃).mono hack2 fun _ _ _ h => h)) fun o₄ b h₄ => ?_
  cases h₄ with
  | failed hr hc => exact Spec.ret (hack2 o₄ hr) (.failed hc)
  | refused hm hlen hne =>
      exact Spec.ret (hack2 o₄ ⟨_, hm, Nat.le_of_eq hlen⟩)
        (.refused (hm₃.trans hm) hlen hne (Or.inr rfl))
  | acked hm =>
      have hm₄ : Wire.Moved o o₄ (ack ++ ack) (le32 data.length ++ data) := by
        have := hm₃.trans hm
        rwa [List.append_nil] at this
      exact Spec.ret (hack2 o₄ ⟨ack, hm, Nat.le_refl 3⟩) (.done hm₄)

end ScoutComputer
