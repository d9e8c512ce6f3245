import ScoutComputer.Bluetooth.FrameProof
import ScoutComputer.Bluetooth.SeatProof

/-!
# What a tablet has begun, and what came of it

`Told` compares the results in a log with the transactions a tablet has begun, and `Tally`
those with the codes that were taken. A transfer that has come through takes none of the
codes, and its result is that of the transaction it is for.
-/

namespace ScoutComputer

open Interact Endian

/-- The statements a transaction is there to have submitted. -/
def Transaction.statements (parse : List Byte → Option Json) : Transaction → List (List Byte)
  | read code payload _ _ =>
      if code.toInt8 = transRecvMatch then
        addMatchDatapoints (JsonParser.ofText parse payload).parseMatch
      else []
  | write _ _ => []

/-- The name a transaction is there to give. -/
def Transaction.givenName : Transaction → Option (List Byte)
  | read code payload _ _ => if code.toInt8 = transRecvTabletInfo then some payload else none
  | write _ _ => none

/-- The statements an effect submits, if it is a result. -/
def Effect.statements : Effect → Option (List (List Byte))
  | .submitted _ statements => some statements
  | _ => none

/-- What a step begins. -/
def LinkAct.begun : LinkAct → List Transaction
  | .begins t => [t]
  | _ => []

open Bluetooth

variable {parse : List Byte → Option Json}

/-! ## What the log is to hold -/

/-- The results in a log are those of the first transactions of `begun`. -/
structure Told (parse : List Byte → Option Json) (begun : List Transaction) (log : List Effect) :
    Prop where
  bound : results log ≤ begun.length
  statements : log.filterMap Effect.statements =
    (begun.take (results log)).map (Transaction.statements parse)
  names : names log = (begun.take (results log)).filterMap Transaction.givenName

theorem told_nil : Told parse [] [] := ⟨Nat.le_refl 0, rfl, rfl⟩

section
variable {begun : List Transaction} {log es es' : List Effect}

theorem statements_silent (h : AllSilent es) : es.filterMap Effect.statements = [] := by
  refine List.filterMap_eq_nil_iff.mpr fun e he => ?_
  have hresult := (h e he).1
  cases e with
  | submitted owner statements => exact Bool.noConfusion hresult
  | _ => rfl

theorem Told.silent (h : Told parse begun log) (hes : AllSilent es) :
    Told parse begun (log ++ es) := by
  have hresults : results (log ++ es) = results log := by
    rw [results_append, results_silent hes, Nat.add_zero]
  refine ⟨?_, ?_, ?_⟩
  · rw [hresults]
    exact h.bound
  · rw [hresults, List.filterMap_append, statements_silent hes, List.append_nil]
    exact h.statements
  · rw [hresults, names_append, names_silent hes, List.append_nil]
    exact h.names

/-- What the tablet begins later changes nothing. -/
theorem Told.begins (h : Told parse begun log) (ts : List Transaction) :
    Told parse (begun ++ ts) log := by
  have htake : (begun ++ ts).take (results log) = begun.take (results log) :=
    List.take_append_of_le_length h.bound
  refine ⟨?_, ?_, ?_⟩
  · rw [List.length_append]
    exact Nat.le_add_right_of_le h.bound
  · rw [htake]
    exact h.statements
  · rw [htake]
    exact h.names

theorem results_conclude {ρ : Type} (t : BtTabObj ρ) (r : Handled ρ) (hes : AllSilent es)
    (hes' : AllSilent es') :
    results (log ++ (es ++ concluded t r ++ es')) = results log + 1 := by
  simp only [results_append, results_silent hes, results_concluded, results_silent hes',
    Nat.zero_add, Nat.add_zero]

/-- The result of the next transaction is submitted. -/
theorem Told.conclude {ρ : Type} {tablet : BtTabObj ρ} {r : Handled ρ} {t : Transaction}
    (h : Told parse begun log) (ht : begun[results log]? = some t)
    (hstatements : r.statements = t.statements parse) (hname : r.name = t.givenName)
    (hes : AllSilent es) (hes' : AllSilent es') :
    Told parse begun (log ++ (es ++ concluded tablet r ++ es')) := by
  have hresults : results (log ++ (es ++ concluded tablet r ++ es')) = results log + 1 :=
    results_conclude tablet r hes hes'
  have htake : begun.take (results log + 1) = begun.take (results log) ++ [t] := by
    rw [List.take_add_one, ht]
    rfl
  have hconcluded : (concluded tablet r).filterMap Effect.statements = [t.statements parse] := by
    unfold concluded
    rw [← hstatements]
    cases r.name with
    | none => rfl
    | some name => rfl
  refine ⟨?_, ?_, ?_⟩
  · rw [hresults]
    exact (List.getElem?_eq_some_iff.mp ht).1
  · rw [hresults, htake, List.map_append, ← h.statements]
    simp only [List.filterMap_append, statements_silent hes, statements_silent hes', hconcluded,
      List.nil_append, List.append_nil, List.map_cons, List.map_nil]
  · rw [hresults, htake, List.filterMap_append, ← h.names]
    simp only [names_append, names_silent hes, names_silent hes', names_concluded, hname,
      List.nil_append, List.append_nil]
    cases hgiven : t.givenName with
    | none => rw [List.filterMap_cons_none hgiven]; rfl
    | some name => rw [List.filterMap_cons_some hgiven]; rfl

end

/-! ## The count of the codes -/

/-- Whether a tablet has begun a transaction it has yet to say the code of. -/
def Talk.unsaid : Option Talk → Nat
  | some k => k.said.isEmpty.toNat
  | none => 0

/-- How many of the bytes were sent as codes. -/
def codeCount (bs : List (Byte × Bool)) : Nat := bs.countP (·.2)

/-- The tablet has begun `begun`, and `c` of the codes were taken. -/
structure Tally (begun : List Transaction) (l : Line) (c : Nat) : Prop where
  count : begun.length = c + codeCount l.up + Talk.unsaid l.talk
  silent : l.talk = none → begun = []
  last : ∀ k, l.talk = some k → begun.getLast? = some k.transaction
  unheard : ∀ k, l.talk = some k → k.said = [] → k.heard = []

theorem tally_init : Tally [] ⟨none, [], []⟩ 0 where
  count := rfl
  silent _ := rfl
  last _ hk := absurd hk (by simp)
  unheard _ hk := absurd hk (by simp)

/-- A tablet that has said nothing has heard nothing. -/
theorem InOrder.unheard {t : Transaction} {heard : List Byte} (h : InOrder t heard []) :
    heard = [] := by
  rcases h with ⟨h, _⟩ | h
  · exact h
  · cases t with
    | read code payload hcode hsize =>
        rcases h with ⟨h, _⟩ | ⟨_, h, _⟩ | ⟨h, _⟩ | ⟨_, h, _⟩
        · exact absurd h (by simp)
        · exact absurd (List.prefix_nil.mp h) (by simp)
        · exact absurd h (by simp)
        · exact absurd (List.prefix_nil.mp h) (by simp)
    | write code hcode =>
        rcases h with ⟨h, _⟩ | ⟨_, h, _⟩ | ⟨h, _⟩ | ⟨_, _, h, _⟩
        · exact absurd h (by simp)
        · exact absurd (List.prefix_nil.mp h) (by simp)
        · exact absurd h (by simp)
        · exact absurd (List.prefix_nil.mp h) (by simp)

theorem codeCount_append (bs bs' : List (Byte × Bool)) :
    codeCount (bs ++ bs') = codeCount bs + codeCount bs' := List.countP_append

theorem codeCount_flying (bs : List Byte) : codeCount (flying bs) = 0 := by
  refine List.countP_eq_zero.mpr fun x hx => ?_
  obtain ⟨b, _, rfl⟩ := List.mem_map.mp hx
  exact Bool.false_ne_true

/-! ## The tally is kept -/

theorem unsaid_of_over {talk : Option Talk} (h : Talk.Over talk) : Talk.unsaid talk = 0 := by
  cases talk with
  | none => rfl
  | some k =>
      have hsaid : k.said = k.transaction.code :: k.transaction.script := h.1
      show k.said.isEmpty.toNat = 0
      rw [hsaid]
      rfl

/-- Only its code is sent as a code. -/
theorem unsaid_speaks {t : Transaction} {h u bs : List Byte} (hunheard : u = [] → h = [])
    (hbs : bs ≠ []) (hf : InOrder t h (u ++ bs)) : u.isEmpty.toNat =
      codeCount (bs.map fun b => (b, u.isEmpty)) + (u ++ bs).isEmpty.toNat := by
  cases u with
  | nil =>
      rw [hunheard rfl] at hf
      obtain ⟨_, rfl⟩ := hf.quiet hbs
      rfl
  | cons b u => exact (codeCount_flying bs).symm

section
variable {begun : List Transaction} {c : Nat}

/-- The tablet says something, and begins what `LinkAct.begun` says. -/
theorem Tally.tablet {ρ : Type} {A : Addressing ρ} {n : Nat} {l l' : Link ρ} {a : LinkAct}
    (h : Tally begun l.line c) (ha : ∀ b, a ≠ .server b) (hs : l.step A parse n a = some l') :
    Tally (begun ++ a.begun) l'.line c := by
  have hcount : begun.length = c + codeCount l.up + Talk.unsaid l.talk := h.count
  cases a with
  | server b => exact absurd rfl (ha b)
  | begins t =>
      unfold Link.step at hs
      dsimp only at hs
      split at hs
      · rename_i hover
        cases hs
        refine ⟨?_, fun hno => absurd hno (by simp [Link.line]), ?_, ?_⟩
        · show (begun ++ [t]).length = c + codeCount l.up + 1
          rw [List.length_append, hcount, unsaid_of_over hover]
          rfl
        · rintro k hk
          cases hk
          exact List.getLast?_concat
        · rintro k hk _
          cases hk
          rfl
      · exact absurd hs (by simp)
  | speaks bs =>
      unfold Link.step at hs
      dsimp only at hs
      split at hs
      · exact absurd hs (by simp)
      · rename_i k hk
        split at hs
        · rename_i hbs
          cases hs
          rw [hk] at hcount
          show Tally (begun ++ []) _ c
          rw [List.append_nil]
          refine ⟨?_, fun hno => absurd hno (by simp [Link.line]), ?_, ?_⟩
          · show begun.length = c + codeCount (l.up ++ bs.map fun b => (b, k.said.isEmpty)) +
              (k.said ++ bs).isEmpty.toNat
            have hspeaks := unsaid_speaks (h.unheard k hk) hbs.1 hbs.2
            have hunsaid : Talk.unsaid (some k) = k.said.isEmpty.toNat := rfl
            rw [codeCount_append, hcount]
            omega
          · rintro k' hk'
            cases hk'
            exact h.last k hk
          · rintro k' hk' hsaid
            cases hk'
            exact absurd (List.append_eq_nil_iff.mp hsaid).2 hbs.1
        · exact absurd hs (by simp)
  | hears size =>
      unfold Link.step at hs
      dsimp only at hs
      split at hs
      · exact absurd hs (by simp)
      · rename_i k hk
        split at hs
        · rename_i hbs
          cases hs
          rw [hk] at hcount
          show Tally (begun ++ []) _ c
          rw [List.append_nil]
          refine ⟨hcount, fun hno => absurd hno (by simp [Link.line]), ?_, ?_⟩
          · rintro k' hk'
            cases hk'
            exact h.last k hk
          · rintro k' hk' hsaid
            cases hk'
            have hsaid : k.said = [] := hsaid
            rw [hsaid] at hbs
            exact hbs.2.unheard
        · exact absurd hs (by simp)

/-- Of the bytes the computer takes, the codes are counted. -/
theorem Tally.served {x : Option (Event winsock)} {bs : List (Byte × Bool)} {l l' : Line}
    (h : Tally begun l c) (hl : Line.Served x bs l l') : Tally begun l' (c + codeCount bs) := by
  cases hl with
  | nothing => exact h
  | call hm =>
      refine ⟨?_, fun hno => h.silent (hm.talk.symm.trans hno), fun k hk =>
        h.last k (hm.talk.symm.trans hk), fun k hk => h.unheard k (hm.talk.symm.trans hk)⟩
      rw [h.count, hm.up, codeCount_append, hm.talk]
      omega

/-- The transaction whose code was taken last, while nothing else of it was. -/
theorem Tally.current {t : Transaction} {k : Nat} {l : Line} (h : Tally begun l (k + 1))
    (hl : InTransfer t [] [] l) : begun[k]? = some t := by
  cases hl with
  | @during h₀ u down up _ hup _ =>
      have hcount : begun.length = k + 1 + codeCount up + 0 := h.count
      have hup : up = flying u := hup
      rw [hup, codeCount_flying] at hcount
      have hk : k = begun.length - 1 := by omega
      rw [hk, ← List.getLast?_eq_getElem?]
      exact h.last _ rfl
  | ahead hc _ hs => exact absurd (List.append_eq_nil_iff.mp hs.symm).1 hc.heard_ne_nil

end

/-! ## What a transfer takes -/

/-- What was taken is a part of what the transaction is to say. -/
theorem InTransfer.isPrefix {t : Transaction} {r s : List Byte} {l : Line}
    (h : InTransfer t r s l) : r <+: t.script := by
  cases h with
  | during hf hup _ =>
      obtain ⟨rest, rfl, _⟩ := flying_rest hup
      exact (List.prefix_append r rest).trans (List.cons_prefix_cons.mp hf.said_isPrefix).2
  | ahead hc _ _ => exact ⟨_, (List.cons.inj hc.1).2⟩

/-- No byte a transfer takes was sent as a code. -/
theorem InTransfer.takes_flying {t : Transaction} {r s : List Byte} {l l' : Line}
    {e : Event winsock} {bs : List (Byte × Bool)} (h : InTransfer t r s l)
    (hm : Line.Moves e bs l l')
    (hle : ∀ rest, r ++ taken e.1 e.2 <+: t.script ++ rest →
      (r ++ taken e.1 e.2).length ≤ t.script.length) : codeCount bs = 0 := by
  have hcount : ∀ rest, bs <+: flying rest → codeCount bs = 0 := by
    intro rest hbs
    rw [eq_flying fun x hx => hbs.subset hx]
    exact codeCount_flying _
  obtain ⟨talk, up, down⟩ := l'
  obtain ⟨_, hup, htaken, _⟩ := hm
  rw [← htaken] at hle
  cases h with
  | during _ hu _ =>
      obtain ⟨rest, _, hrest⟩ := flying_rest hu
      exact hcount rest ⟨up, hup.symm.trans hrest⟩
  | @ahead t' h u rest down₀ hc _ _ =>
      have hup : flying rest ++ coded u = bs ++ up := hup
      have hscript : r ++ rest = t.script := (List.cons.inj hc.1).2
      -- the bytes of the next code come after the script
      have hall : r ++ bs.map Prod.fst <+: t.script ++ u := by
        have hfst := congrArg (List.map Prod.fst) hup
        rw [List.map_append, List.map_append, fst_flying, fst_coded] at hfst
        rw [← hscript, List.append_assoc, List.prefix_append_right_inj, hfst]
        exact List.prefix_append _ _
      have hlen := hle u hall
      rw [← hscript, List.length_append, List.length_append, List.length_map] at hlen
      refine hcount rest (List.prefix_of_prefix_length_le ⟨up, hup.symm⟩
        (List.prefix_append _ (coded u)) ?_)
      rw [flying, List.length_map]
      omega

/-! ## What a transfer returns -/

/-- The transaction the computer is in is `t`; its flag is what its job will return. -/
def Serves {ρ : Type} (t : Transaction) (trans : TabTransaction ρ)
    (prog : Job (Option (List Byte) × Bool)) : Prop :=
  match t with
  | .read code _ _ _ => trans.writeTransaction = false ∧ trans.transactionType = code.toInt8 ∧
      Spec flag prog trans.success (fun _ => True) fun b r => b = r.2
  | .write _ _ => trans.writeTransaction = true

section
variable {ρ : Type} {t : Transaction} {trans : TabTransaction ρ} {s : SharedState ρ} {o : Wire}
  {l : Line}

/-- A read transfer that has returned has the payload. -/
theorem read_returns {code : Byte} {payload : List Byte} {hcode : 0 < code.toInt8}
    {hsize : payload.length < 2 ^ 31} {res : Option (List Byte) × Bool}
    (h : Transfer (.read code payload hcode hsize) (.ret res) o) (hc : o.clean = true)
    (hle : o.inp <+: (Transaction.read code payload hcode hsize).script) :
    res = (some payload, true) := by
  have hspec : Spec wire (.ret res) o (ReadInv .init) (ReadOutcome .init) := h
  cases hspec.post_of with
  | failed hdirty =>
      rw [hc] at hdirty
      exact Bool.noConfusion hdirty
  | @done size got hm hlen hgot =>
      have hsent : size ++ got <+: le32 payload.length ++ payload := (hm.inp ▸ hle :)
      have hsize' : size = le32 payload.length := eq_of_isPrefix hsent hlen
      rw [hsize', ofLe32_le32_natCast hsize] at hgot
      rw [hsize'] at hsent
      have hgot' : got = payload := ((List.prefix_append_right_inj _).mp hsent).eq_of_length
        (by omega)
      rw [hgot']

/-- What `get()` gives is the payload. -/
theorem Serves.get {code : Byte} {payload : List Byte} {hcode : 0 < code.toInt8}
    {hsize : payload.length < 2 ^ 31} (h : Serves (.read code payload hcode hsize) trans s.prog)
    (hdata : trans.data = some s) (hw : WorkingOn (.read code payload hcode hsize) o s l)
    {v : Option (List Byte)} {trans' : TabTransaction ρ} (hget : trans.get = .ok (v, trans')) :
    v = some payload ∧ trans.success = true := by
  obtain ⟨_, _, hflag⟩ := h
  unfold TabTransaction.get at hget
  rw [hdata] at hget
  dsimp only at hget
  split at hget
  · exact absurd hget (by simp)
  · rename_i res hres
    have htransfer := hw.transfer
    rw [Prog.result?_eq_some.mp hres] at htransfer hflag
    obtain rfl := read_returns htransfer hw.clean hw.line.isPrefix
    exact ⟨(congrArg Prod.fst (Except.ok.inj hget)).symm, hflag.post_of⟩

/-- The result is that of the transaction. -/
theorem Serves.handled {r : Handled ρ} (h : Serves t trans s.prog) (hdata : trans.data = some s)
    (hw : WorkingOn t o s l) (hr : handleTransResult parse trans = .ok r) :
    r.statements = t.statements parse ∧ r.name = t.givenName := by
  unfold handleTransResult at hr
  cases t with
  | write code hcode =>
      have hwrite : trans.writeTransaction = true := h
      rw [if_pos hwrite] at hr
      cases hr
      exact ⟨rfl, rfl⟩
  | read code payload hcode hsize =>
      obtain ⟨hwrite, htype, _⟩ := id h
      unfold Transaction.statements Transaction.givenName
      rw [if_neg (by rw [hwrite]; exact Bool.false_ne_true), htype] at hr
      by_cases hmatch : code.toInt8 = transRecvMatch
      · rw [if_pos hmatch] at hr
        cases hg : trans.get with
        | error fault =>
            rw [hg] at hr
            exact absurd hr (by simp [bind, Except.bind])
        | ok res =>
            obtain ⟨v, trans'⟩ := res
            obtain ⟨rfl, hsuccess⟩ := h.get hdata hw hg
            simp only [hg, hsuccess, bind, Except.bind, if_true] at hr
            cases hr
            refine ⟨(if_pos hmatch).symm, (if_neg ?_).symm⟩
            rw [hmatch]
            decide
      · rw [if_neg hmatch] at hr
        dsimp only
        rw [if_neg hmatch]
        by_cases hinfo : code.toInt8 = transRecvTabletInfo
        · rw [if_pos hinfo] at hr ⊢
          cases hg : trans.get with
          | error fault =>
              rw [hg] at hr
              exact absurd hr (by simp [bind, Except.bind])
          | ok res =>
              obtain ⟨v, trans'⟩ := res
              obtain ⟨rfl, hsuccess⟩ := h.get hdata hw hg
              simp only [hg, hsuccess, bind, Except.bind, if_true] at hr
              cases hr
              exact ⟨rfl, rfl⟩
        · rw [if_neg hinfo] at hr ⊢
          cases hr
          exact ⟨rfl, rfl⟩

end

end ScoutComputer
