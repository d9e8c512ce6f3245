import ScoutComputer.Bluetooth.PolicyProof

/-!
# When a write transfer succeeds

The flag of `internalWrite` is the conjunction of four steps. `TransferProof` bounds what
goes over the wire; here the flag itself is determined, from the bytes that went each
way and from whether the deadline of a `readAllSocketData` was ever found to have passed.
-/

namespace ScoutComputer

open Interact Endian

/-- A deadline is found to have passed. -/
def late : (c : Call) → c.Res → Bool
  | .getTime (some timeoutTime), now => decide (timeoutTime < (show Rat from now))
  | _, _ => false

/-- The allocator has room. -/
def Allocates : (c : Call) → c.Res → Prop
  | .malloc _, ok => ok = true
  | _, _ => True

instance : (c : Call) → (r : c.Res) → Decidable (Allocates c r)
  | .malloc _, ok => inferInstanceAs (Decidable (ok = true))
  | .getTime _, _ => inferInstanceAs (Decidable True)
  | .recv _, _ => inferInstanceAs (Decidable True)
  | .send _, _ => inferInstanceAs (Decidable True)
  | .select _, _ => inferInstanceAs (Decidable True)
  | .closesocket, _ => inferInstanceAs (Decidable True)
  | .setSuccess _, _ => inferInstanceAs (Decidable True)

/-- As `Wire.next`, but only a deadline that has passed lowers `clean`. -/
def Wire.tick (o : Wire) (c : Call) (r : c.Res) : Wire where
  inp := o.inp ++ taken c r
  out := o.out ++ given c r
  clean := o.clean && !late c r

/-- The observer of the wire and the deadlines, while no allocation fails. -/
def timed : Observer winsock Wire where
  allow _ c r := Permitted c r ∧ Allocates c r
  next := Wire.tick

/-! ## One call -/

section
variable (o : Wire)

theorem tick_eq_self {c : Call} {r : c.Res} (ht : taken c r = []) (hg : given c r = [])
    (hl : late c r = false) : o.tick c r = o := by
  simp [Wire.tick, ht, hg, hl]

theorem tick_getTime_some (timeoutTime now : Rat) :
    o.tick (.getTime (some timeoutTime)) now = if timeoutTime < now then o.dirty else o := by
  split
  · rename_i h
    simp [Wire.tick, Wire.dirty, taken, given, late, h]
  · rename_i h
    exact tick_eq_self o rfl rfl (decide_eq_false h)

theorem tick_recv (n : Nat) (bs : List Byte) :
    o.tick (.recv n) (RecvRes.ret bs) = o.take bs := by
  simp [Wire.tick, Wire.take, taken, given, late]

theorem tick_send (data : List Byte) (n : Nat) :
    o.tick (.send data) (SendRes.ret n) = o.give (data.take n) := by
  simp [Wire.tick, Wire.give, taken, given, late]

end

section
variable {α : Type} {o : Wire} {post : Wire → α → Prop}

/-- A call that moves no byte and looks at no deadline. -/
theorem quiet_timed {c : Call} {k : c.Res → Job α}
    (hq : ∀ r, taken c r = [] ∧ given c r = [] ∧ late c r = false)
    (h : ∀ r, Allocates c r → Spec timed (k r) o (fun _ => True) post) :
    Spec timed (Prog.call (I := winsock) c k) o (fun _ => True) post := by
  refine Spec.call trivial fun r hr => ?_
  obtain ⟨ht, hg, hl⟩ := hq r
  show Spec timed (k r) (o.tick c r) _ _
  rw [tick_eq_self o ht hg hl]
  exact h r hr.2

theorem set_timed {r : SuccessRef} {b : Bool} {f : Unit → Job α}
    (h : Spec timed (f ()) o (fun _ => True) post) :
    Spec timed ((r.set b).bind f) o (fun _ => True) post := by
  cases r with
  | loc => exact h
  | trans => exact quiet_timed (fun _ => ⟨rfl, rfl, rfl⟩) fun _ _ => h

theorem malloc_timed {n : Nat} {f : Bool → Job α}
    (h : Spec timed (f true) o (fun _ => True) post) :
    Spec timed ((malloc n).bind f) o (fun _ => True) post := by
  refine quiet_timed (fun _ => ⟨rfl, rfl, rfl⟩) fun ok hok => ?_
  cases hok
  exact h

/-- The deadline check of an iteration. -/
theorem deadline_timed {timeoutTime : Rat} {f : Job (RecvLoop ⊕ Option (List Byte))}
    {post : Wire → RecvLoop ⊕ Option (List Byte) → Prop} (hlate : post o.dirty (.inr none))
    (hf : Spec timed f o (fun _ => True) post) :
    Spec timed ((getTime (some timeoutTime)).bind fun now =>
      if now > timeoutTime then .ret (.inr none) else f) o (fun _ => True) post := by
  refine Spec.call trivial fun now _ => ?_
  show Spec timed (if _ then _ else _) (o.tick (.getTime (some timeoutTime)) now) _ _
  rw [tick_getTime_some]
  by_cases hnow : timeoutTime < now
  · rw [if_pos hnow, if_pos hnow]
    exact Spec.ret trivial hlate
  · rw [if_neg hnow, if_neg hnow]
    exact hf

end

/-! ## The routines -/

/-- A loop that asks for `n` bytes returns them, unless it was too late. -/
def ReadInTime (n : Nat) (o o' : Wire) (res : Option (List Byte)) : Prop :=
  ∃ d, Wire.Moved o o' d [] ∧ d.length ≤ n ∧
    res = if d.length = n ∧ o'.clean = true then some d else none

theorem ReadInTime.of_short {n : Nat} {o o' : Wire} {d : List Byte} (hm : Wire.Moved o o' d [])
    (hd : d.length < n) : ReadInTime n o o' none :=
  ⟨d, hm, Nat.le_of_lt hd, (if_neg fun h => Nat.ne_of_lt hd h.1).symm⟩

theorem ReadInTime.of_late {n : Nat} {o o' : Wire} {d : List Byte} (hm : Wire.Moved o o' d [])
    (hd : d.length ≤ n) (hc : o'.clean = false) : ReadInTime n o o' none :=
  ⟨d, hm, hd, (if_neg fun h => Bool.noConfusion (hc.symm.trans h.2)).symm⟩

theorem recvLoop_timed {n : Nat} (hn : 0 < n) (timeoutTime : Rat) {o : Wire}
    (hc : o.clean = true) :
    Spec timed (recvLoop n timeoutTime) o (fun _ => True) (ReadInTime n o) := by
  refine Spec.loop (fun s o' => Wire.Moved o o' s.dataRecvd [] ∧ s.dataRecvd.length < n ∧
    o'.clean = true) ⟨.refl o, hn, hc⟩ ?_
  intro s o' ⟨hm, hlt, hc'⟩
  refine ⟨trivial, fun res hres => ?_⟩
  have hfail : Spec timed (.ret none) o' (fun _ => True) (ReadInTime n o) :=
    Spec.ret trivial (.of_short hm hlt)
  have hlate : Spec timed (.ret none) o'.dirty (fun _ => True) (ReadInTime n o) :=
    Spec.ret trivial (.of_short hm.dirty hlt)
  show Spec timed (recvIteration n s res) (o'.tick (.recv _) res) _ _
  cases res with
  | err code =>
      rw [tick_eq_self o' rfl rfl rfl]
      refine deadline_timed hlate ?_
      show Spec timed (if _ then _ else _) _ _ _
      split
      · exact Spec.ret trivial ⟨hm, hlt, hc'⟩
      · exact Spec.ret trivial hfail
  | ret bs =>
      rw [tick_recv]
      cases bs with
      | nil =>
          have hnil : o'.take [] = o' := by simp [Wire.take]
          rw [hnil]
          exact deadline_timed hlate (Spec.ret trivial hfail)
      | cons b bs =>
          have hlen : (b :: bs).length ≤ n - s.dataRecvd.length := hres.1
          have hm' : Wire.Moved o (o'.take (b :: bs)) (s.dataRecvd ++ b :: bs) [] :=
            hm.trans ⟨rfl, by simp⟩
          have hle : (s.dataRecvd ++ b :: bs).length ≤ n := by
            rw [List.length_append]
            omega
          refine quiet_timed (fun _ => ⟨rfl, rfl, rfl⟩) fun now _ => ?_
          -- even the last bytes are lost when the new deadline has passed by now
          refine deadline_timed (Spec.ret trivial (.of_late hm'.dirty hle rfl)) ?_
          show Spec timed (if _ then _ else _) _ _ _
          by_cases hmore : (s.dataRecvd ++ b :: bs).length < n
          · rw [if_pos hmore]
            exact Spec.ret trivial ⟨hm', hmore, hc'⟩
          · rw [if_neg hmore]
            refine Spec.ret trivial (Spec.ret trivial ⟨_, hm', hle, (if_pos ⟨?_, hc'⟩).symm⟩)
            omega

theorem readAllSocketData_timed (ref : SuccessRef) {n : Nat} (hn : 0 < n) {o : Wire}
    (hc : o.clean = true) :
    Spec timed (readAllSocketData ref n) o (fun _ => True) fun o' res =>
      ReadInTime n o o' res.1 ∧ res.2 = res.1.isSome := by
  refine set_timed (quiet_timed (c := .getTime none) (fun _ => ⟨rfl, rfl, rfl⟩) fun now _ => ?_)
  show Spec timed (if _ then _ else _) _ _ _
  rw [if_neg (by omega)]
  refine malloc_timed (Spec.bind (recvLoop_timed hn (now + 10) hc) fun o' res hres => ?_)
  cases res with
  | none => exact set_timed (Spec.ret trivial ⟨hres, rfl⟩)
  | some d => exact Spec.ret trivial ⟨hres, rfl⟩

/-- `readAck` says whether an ACK came, in time. -/
theorem readAck_timed {o : Wire} (hc : o.clean = true) :
    Spec timed readAck o (fun _ => True) fun o' b => ∃ d, Wire.Moved o o' d [] ∧
      d.length ≤ 3 ∧ (b = true ↔ d = ack ∧ o'.clean = true) := by
  refine malloc_timed ?_
  show Spec timed ((readAllSocketData .loc btTabAckSize).bind _) o _ _
  refine Spec.bind (readAllSocketData_timed .loc (by decide) hc) ?_
  intro o' ⟨res, success⟩ ⟨⟨d, hm, hd, hres⟩, hsuccess⟩
  dsimp only at hres hsuccess
  subst hsuccess
  by_cases hall : d.length = btTabAckSize ∧ o'.clean = true
  · rw [if_pos hall] at hres
    subst hres
    refine Spec.ret trivial ⟨d, hm, hd, ?_⟩
    show (some d == some ack) = true ↔ _
    rw [beq_iff_eq, Option.some_inj]
    exact (and_iff_left hall.2).symm
  · rw [if_neg hall] at hres
    subst hres
    refine Spec.ret trivial ⟨d, hm, hd, iff_of_false Bool.noConfusion fun h => hall ?_⟩
    rw [h.1]
    exact ⟨rfl, h.2⟩

/-- `sendToSocket` says whether everything was accepted. -/
theorem sendToSocket_timed (data : List Byte) {o : Wire} (hc : o.clean = true) :
    Spec timed (sendToSocket data) o (fun _ => True) fun o' b => ∃ s, Wire.Moved o o' [] s ∧
      o'.clean = true ∧ (b = true ↔ s = data) := by
  unfold sendToSocket
  by_cases hlen : data.length < 1
  · rw [if_pos hlen]
    have hnil : data = [] := List.length_eq_zero_iff.mp (by omega)
    exact Spec.ret trivial ⟨[], .refl o, hc, iff_of_true rfl hnil.symm⟩
  · rw [if_neg hlen]
    refine Spec.loop (fun k o' => k < data.length ∧ Wire.Moved o o' [] (data.take k) ∧
      o'.clean = true) ⟨by omega, .refl o, hc⟩ ?_
    intro k o' ⟨hk, hm, hc'⟩
    refine ⟨trivial, fun res hres => ?_⟩
    show Spec timed (sendIteration data k res) (o'.tick (.send _) res) _ _
    cases res with
    | err code =>
        rw [tick_eq_self o' rfl rfl rfl]
        unfold sendIteration
        dsimp only
        split
        · exact Spec.ret trivial ⟨hk, hm, hc'⟩
        · refine Spec.ret trivial (Spec.ret trivial ⟨_, hm, hc', iff_of_false Bool.noConfusion ?_⟩)
          intro hall
          have := congrArg List.length hall
          rw [List.length_take] at this
          omega
    | ret n =>
        have hn : n ≤ (data.drop k).length := hres.1
        rw [List.length_drop] at hn
        have hm' : Wire.Moved o (o'.give ((data.drop k).take n)) [] (data.take (k + n)) := by
          rw [List.take_add]
          exact hm.trans ⟨by simp, rfl⟩
        rw [tick_send, sendIteration]
        by_cases hmore : k + n < data.length
        · rw [if_pos hmore]
          exact Spec.ret trivial ⟨hmore, hm', hc'⟩
        · rw [if_neg hmore]
          refine Spec.ret trivial (Spec.ret trivial ⟨_, hm', hc', iff_of_true rfl ?_⟩)
          exact List.take_of_length_le (by omega)

theorem andThen_timed {p : Job Bool} {o : Wire} {post : Wire → Bool → Prop}
    (h : Spec timed p o (fun _ => True) post) :
    Spec timed (andThen true p) o (fun _ => True) post :=
  Spec.bind h fun _ _ hb => set_timed (Spec.ret trivial hb)

theorem andThen_false_timed {α : Type} {p : Job Bool} {f : Bool → Job α} {o : Wire}
    {post : Wire → α → Prop} (h : Spec timed (f false) o (fun _ => True) post) :
    Spec timed ((andThen false p).bind f) o (fun _ => True) post :=
  set_timed (r := .trans) (b := false) h

theorem internalWrite_timed (data : List Byte) :
    Spec timed (internalWrite data) .init (fun _ => True) fun o' res =>
      (res.2 = true ↔ o'.out = le32 data.length ++ data ∧ o'.inp = ack ++ ack ∧
        o'.clean = true) := by
  -- a step that fails leaves fewer than the six bytes of two ACKs
  have hfail : ∀ o' : Wire, o'.inp.length ≤ 3 → Spec timed (.ret (none, false)) o'
      (fun _ => True) fun o' (res : Option (List Byte) × Bool) =>
        (res.2 = true ↔ o'.out = le32 data.length ++ data ∧ o'.inp = ack ++ ack ∧
          o'.clean = true) := by
    intro o' hlen
    refine Spec.ret trivial (iff_of_false Bool.noConfusion fun h => ?_)
    rw [h.2.1] at hlen
    exact absurd hlen (by decide)
  refine set_timed ?_
  refine Spec.bind (andThen_timed (sendToSocket_timed _ rfl)) fun o₁ b ⟨s, hm₁, hc₁, hb⟩ => ?_
  cases b with
  | false => exact andThen_false_timed (hfail o₁ (by rw [hm₁.inp]; exact Nat.zero_le 3))
  | true =>
  have hs := hb.mp rfl
  subst hs
  refine Spec.bind (andThen_timed (readAck_timed hc₁)) fun o₂ b ⟨d, hm, hd, hb⟩ => ?_
  have hm₂ := hm₁.trans hm
  cases b with
  | false => exact hfail o₂ (by rw [hm₂.inp]; exact hd)
  | true =>
  obtain ⟨hack, hc₂⟩ := hb.mp rfl
  subst hack
  refine Spec.bind (andThen_timed (sendToSocket_timed data hc₂)) fun o₃ b ⟨s, hm, hc₃, hb⟩ => ?_
  have hm₃ := hm₂.trans hm
  cases b with
  | false => exact andThen_false_timed (hfail o₃ (by rw [hm₃.inp]; exact Nat.le_refl 3))
  | true =>
  have hs := hb.mp rfl
  subst hs
  refine Spec.bind (andThen_timed (readAck_timed hc₃)) fun o₄ b ⟨d, hm, hd, hb⟩ => ?_
  have hm₄ := hm₃.trans hm
  refine Spec.ret trivial (hb.trans ?_)
  rw [hm₄.inp, hm₄.out]
  simp [Wire.init]

/-! ## The success flag -/

theorem andThen_flag {p : Job Bool} (hp : Keeps flag p) (success b : Bool)
    (hb : b = success) :
    Spec flag (andThen success p) b (fun _ => True) fun b' r => b' = r := by
  subst hb
  cases b with
  | false => exact set_flag (Spec.ret trivial rfl)
  | true => exact hp.bind_spec trivial fun _ => set_flag (Spec.ret trivial rfl)

theorem readAck_keepsFlag : Keeps flag readAck :=
  readAck_keeps (fun _ _ _ => rfl) (fun _ _ _ => rfl) fun _ _ _ => rfl

/-- **The flag a write transfer leaves behind is the one it returns.** -/
theorem internalWrite_flag (data : List Byte) (b : Bool) :
    Spec flag (internalWrite data) b (fun _ => True) fun b' r => b' = r.2 := by
  have hsend : ∀ data, Keeps flag (sendToSocket data) := fun data =>
    sendToSocket_keeps (fun _ _ _ => rfl) data
  refine set_flag (Spec.bind (andThen_flag (hsend _) true true rfl) fun b₁ s₁ h₁ => ?_)
  refine Spec.bind (andThen_flag readAck_keepsFlag s₁ b₁ h₁) fun b₂ s₂ h₂ => ?_
  cases s₂ with
  | false => exact Spec.ret trivial h₂
  | true =>
      refine Spec.bind (andThen_flag (hsend data) true b₂ h₂) fun b₃ s₃ h₃ => ?_
      refine Spec.bind (andThen_flag readAck_keepsFlag s₃ b₃ h₃) fun b₄ s₄ h₄ => ?_
      exact Spec.ret trivial h₄

/-! ## Whole runs -/

theorem timed_allows {t : Trace} (hperm : AllPermitted t) (hroom : ∀ e ∈ t, Allocates e.1 e.2)
    (o : Wire) : timed.Allows o t := by
  induction t generalizing o with
  | nil => trivial
  | cons e t ih =>
      refine ⟨⟨hperm e List.mem_cons_self, hroom e List.mem_cons_self⟩, ih ?_ ?_ _⟩
      · exact fun e' h' => hperm e' (List.mem_cons_of_mem e h')
      · exact fun e' h' => hroom e' (List.mem_cons_of_mem e h')

theorem timed_run (o : Wire) (t : Trace) :
    (timed.run o t).inp = o.inp ++ received t ∧ (timed.run o t).out = o.out ++ sent t ∧
      ((timed.run o t).clean = true ↔ o.clean = true ∧ ∀ e ∈ t, late e.1 e.2 = false) := by
  induction t generalizing o with
  | nil =>
      refine ⟨(List.append_nil _).symm, (List.append_nil _).symm, ?_⟩
      exact (and_iff_left fun e he => absurd he List.not_mem_nil).symm
  | cons e t ih =>
      obtain ⟨h1, h2, h3⟩ := ih (o.tick e.1 e.2)
      refine ⟨?_, ?_, h3.trans ?_⟩
      · rw [received, List.flatMap_cons, ← List.append_assoc]
        exact h1
      · rw [sent, List.flatMap_cons, ← List.append_assoc]
        exact h2
      · show (o.clean && !late e.1 e.2) = true ∧ _ ↔ _
        rw [Bool.and_eq_true, Bool.not_eq_true', and_assoc, List.forall_mem_cons]

/-- What a write transfer has received and sent, however far it has come. -/
theorem internalWrite_progress {data : List Byte} {t : Trace}
    {q : Job (Option (List Byte) × Bool)} (hrun : (internalWrite data).after t = some q)
    (hperm : AllPermitted t) :
    WriteProgress (le32 data.length) data (received t) (sent t) := by
  have hinv := ((internalWrite_spec data .init).after hrun (hperm.wire .init)).inv_of
  obtain ⟨r, s, hm, hp⟩ := hinv
  obtain ⟨hinp, hout⟩ := wire_run .init t
  have hr : r = received t := by simpa [Wire.init] using hm.inp.symm.trans hinp
  have hs : s = sent t := by simpa [Wire.init] using hm.out.symm.trans hout
  rw [← hr, ← hs]
  exact hp

theorem WriteProgress.acked {size data r s : List Byte} (h : WriteProgress size data r s)
    (hs : size.length < s.length) : ack <+: r := by
  cases h with
  | size hs' => exact absurd hs (Nat.not_lt_of_le hs'.length_le)
  | sizeAck hr => exact absurd hs (Nat.lt_irrefl _)
  | data hs' => exact List.prefix_refl _
  | dataAck hr => exact List.prefix_append ack _

theorem WriteProgress.size_sent {size data r s : List Byte} (h : WriteProgress size data r s)
    (hr : r ≠ []) : size <+: s := by
  cases h with
  | size hs => exact absurd rfl hr
  | sizeAck hr' => exact List.prefix_refl _
  | data hs => exact List.prefix_append size _
  | dataAck hr' => exact List.prefix_append size data

/--
**`internalWrite` sends the framed data and respects the ACK.** At every point of every
run the socket has accepted a prefix of the size and the data, nothing was received
before the size was out, and a data byte only went out after an ACK. Once the routine has
returned, its flag is up exactly if everything went out, both ACKs came in, and no
deadline was found to have passed.
-/
theorem internalWrite_succeeds_iff {data : List Byte} {t : Trace}
    {q : Job (Option (List Byte) × Bool)} (hrun : (internalWrite data).after t = some q)
    (hperm : AllPermitted t) (hroom : ∀ e ∈ t, Allocates e.1 e.2) :
    sent t <+: le32 data.length ++ data ∧
      (received t ≠ [] → le32 data.length <+: sent t) ∧
      (4 < (sent t).length → ack <+: received t) ∧
      ∀ b res, q.result? = some res →
        res.1 = none ∧ flagAfter b t = res.2 ∧
          (flagAfter b t = true ↔ sent t = le32 data.length ++ data ∧
            received t = ack ++ ack ∧ ∀ e ∈ t, late e.1 e.2 = false) := by
  have hprog := internalWrite_progress hrun hperm
  refine ⟨hprog.isPrefix, hprog.size_sent, hprog.acked, fun b res hres => ?_⟩
  have hret := Prog.result?_eq_some.mp hres
  subst hret
  have hflag : flagAfter b t = res.2 :=
    ((internalWrite_flag data b).after hrun (flag_allows b t)).post_of
  have hout := ((internalWrite_spec data .init).after hrun (hperm.wire .init)).post_of
  have htimed := ((internalWrite_timed data).after hrun (timed_allows hperm hroom .init)).post_of
  obtain ⟨hinp, hsent, hclean⟩ := timed_run .init t
  rw [hinp, hsent, hclean] at htimed
  refine ⟨?_, hflag, ?_⟩
  · cases hout with
    | done hm => rfl
    | refused hm hlen hne hr => rfl
    | failed hc => rfl
  · rw [hflag, htimed]
    simp [Wire.init]

theorem internalWrite_succeeds_iff_writeCalls :
    flagAfter false (writeCalls (bytes "red")) = true := by
  have hrun : ((internalWrite (bytes "red")).after (writeCalls (bytes "red"))).bind Prog.result? =
      some (none, true) := by decide +kernel
  obtain ⟨q, hq, hres⟩ := Option.bind_eq_some_iff.mp hrun
  have h := internalWrite_succeeds_iff hq (by decide +kernel) (by decide +kernel)
  exact (h.2.2.2 false _ hres).2.2.mpr (by decide +kernel)

/-- The last ACK comes in, and the deadline set for more bytes has passed when it is checked. -/
def lateAckCalls : Trace :=
  (writeCalls (bytes "red")).dropLast.dropLast ++
    [⟨.getTime (some 10), (11 : Rat)⟩, ⟨.setSuccess false, ()⟩]

/-- Everything was accepted and both ACKs came, and the transfer has failed. -/
theorem internalWrite_lateAck : ¬ ∀ (data : List Byte) (t : Trace)
    (res : Option (List Byte) × Bool), data.length < 2 ^ 31 →
    ((internalWrite data).after t).bind Prog.result? = some res → AllPermitted t →
    (∀ e ∈ t, Allocates e.1 e.2) →
    (res.2 = true ↔ sent t = le32 data.length ++ data ∧ received t = ack ++ ack) := by
  intro hall
  have h := hall (bytes "red") lateAckCalls (none, false) (by decide) (by decide +kernel)
    (by decide +kernel) (by decide +kernel)
  exact absurd h (by decide +kernel)

end ScoutComputer
