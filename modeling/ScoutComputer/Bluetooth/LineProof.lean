import ScoutComputer.Bluetooth.ViewProof
import ScoutComputer.Bluetooth.PairProof

/-!
# A transfer and the tablet it is for

What the tablet has said in a transaction is what the transfer has taken and what is in
flight, and the other way round. This holds from the code to the end of the transfer,
though by then the tablet may have heard everything and be in its next transaction.
-/

namespace ScoutComputer

open Interact Endian

/-! ## What a tablet says and hears -/

theorem code_isPrefix (t : Transaction) : [t.code] <+: t.code :: t.script :=
  ⟨t.script, rfl⟩

/-- A tablet says no more than the whole of its transaction. -/
theorem InOrder.said_isPrefix {t : Transaction} {heard said : List Byte}
    (h : InOrder t heard said) : said <+: t.code :: t.script := by
  rcases h with ⟨_, h⟩ | h
  · exact h.trans (code_isPrefix t)
  · cases t with
    | read code payload hcode hsize =>
        have hle : code :: le32 payload.length <+: code :: (le32 payload.length ++ payload) :=
          ⟨payload, rfl⟩
        rcases h with ⟨rfl, _⟩ | ⟨_, _, h⟩ | ⟨rfl, _⟩ | ⟨_, _, h⟩
        · exact ⟨_, rfl⟩
        · exact h.trans hle
        · exact hle
        · exact h
    | write code hcode =>
        have hle : code :: ack <+: code :: (ack ++ ack) := ⟨ack, rfl⟩
        rcases h with ⟨rfl, _⟩ | ⟨_, _, h⟩ | ⟨rfl, _⟩ | ⟨_, _, _, h⟩
        · exact ⟨_, rfl⟩
        · exact h.trans hle
        · exact hle
        · exact h

/-- A tablet that has heard nothing says no more than its code. -/
theorem InOrder.only_code {t : Transaction} {said : List Byte} (h : InOrder t [] said) :
    said <+: [t.code] := by
  rcases h with ⟨_, h⟩ | h
  · exact h
  · cases t with
    | read code payload hcode hsize =>
        rcases h with ⟨rfl, _⟩ | ⟨h, _⟩ | ⟨_, h, _⟩ | ⟨h, _⟩
        · exact List.prefix_refl _
        · exact absurd h (by decide)
        · exact absurd h (by decide)
        · exact absurd h (by decide)
    | write code hcode =>
        rcases h with ⟨rfl, _⟩ | ⟨h, _⟩ | ⟨_, h, _⟩ | ⟨h, _⟩
        · exact List.prefix_refl _
        · exact absurd h (by decide)
        · exact absurd h (by decide)
        · exact absurd h (by decide)

/-- A tablet that has heard nothing and said its code has nothing to say. -/
theorem InOrder.quiet {t : Transaction} {u bs : List Byte} (h : InOrder t [] (u ++ bs))
    (hbs : bs ≠ []) : u = [] ∧ bs = [t.code] := by
  have hle := h.only_code
  have hlen := hle.length_le
  rw [List.length_append, List.length_singleton] at hlen
  have hpos := List.length_pos_iff.mpr hbs
  have hu : u = [] := List.eq_nil_of_length_eq_zero (by omega)
  subst hu
  exact ⟨rfl, hle.eq_of_length (by rw [List.nil_append, List.length_singleton]; omega)⟩

/-- A tablet that has said everything has nothing to say. -/
theorem Completes.quiet {t : Transaction} {h h' u bs : List Byte} (hc : Completes t h u)
    (hf : InOrder t h' (u ++ bs)) : bs = [] := by
  have hlen := hf.said_isPrefix.length_le
  rw [hc.1, List.length_append] at hlen
  exact List.eq_nil_of_length_eq_zero (by omega)

theorem Completes.heard_ne_nil {t : Transaction} {h u : List Byte} (hc : Completes t h u) :
    h ≠ [] := by
  rintro rfl
  cases t with
  | read code payload hcode hsize =>
      have hack : [] = ack ++ ack := hc.2
      exact absurd hack (by decide)
  | write code hcode => exact absurd hc.2.1 (by decide)

theorem announced_append {h x : List Byte} (hlen : 4 ≤ h.length) :
    announced (h ++ x) = announced h := by
  unfold announced
  rw [List.take_append_of_le_length hlen]

/-- A tablet that has heard everything is not to hear more. -/
theorem Completes.unique {t : Transaction} {h x u : List Byte} (hc : Completes t h u)
    (hc' : Completes t (h ++ x) u) : x = [] := by
  cases t with
  | read code payload hcode hsize =>
      have heq : h ++ x = h := hc'.2.trans hc.2.symm
      exact List.append_right_eq_self.mp heq
  | write code hcode =>
      obtain ⟨_, hlen, hh⟩ := hc
      have hh' := hc'.2.2
      rw [announced_append hlen, List.length_append] at hh'
      exact List.eq_nil_of_length_eq_zero (by omega)

/-! ## The line -/

/-- What a tablet is in the middle of, and what is in flight. -/
structure Line where
  talk : Option Talk
  up : List (Byte × Bool)
  down : List Byte

/-- What a tablet does by itself. -/
inductive Line.Tablet : Line → Line → Prop where
  | begins {talk : Option Talk} {up : List (Byte × Bool)} {down : List Byte} (t : Transaction) :
      Talk.Over talk → Line.Tablet ⟨talk, up, down⟩ ⟨some ⟨t, [], []⟩, up, down⟩
  | speaks {t : Transaction} {h u bs : List Byte} {up : List (Byte × Bool)} {down : List Byte} :
      bs ≠ [] → InOrder t h (u ++ bs) →
      Line.Tablet ⟨some ⟨t, h, u⟩, up, down⟩
        ⟨some ⟨t, h, u ++ bs⟩, up ++ bs.map fun b => (b, u.isEmpty), down⟩
  | hears {t : Transaction} {h u bs : List Byte} {up : List (Byte × Bool)}
      {down down' : List Byte} : bs ≠ [] → InOrder t (h ++ bs) u → down = bs ++ down' →
      Line.Tablet ⟨some ⟨t, h, u⟩, up, down⟩ ⟨some ⟨t, h ++ bs, u⟩, up, down'⟩

/-- What a call of the computer does, which takes `bs`. -/
structure Line.Moves (e : Event winsock) (bs : List (Byte × Bool)) (l l' : Line) : Prop where
  talk : l'.talk = l.talk
  up : l.up = bs ++ l'.up
  took : bs.map Prod.fst = taken e.1 e.2
  down : l'.down = l.down ++ given e.1 e.2

/-- Bytes that were not sent as a code. -/
def flying (bs : List Byte) : List (Byte × Bool) := bs.map fun b => (b, false)

/-- Bytes that were. -/
def coded (bs : List Byte) : List (Byte × Bool) := bs.map fun b => (b, true)

theorem flying_append (bs bs' : List Byte) : flying (bs ++ bs') = flying bs ++ flying bs' :=
  List.map_append

theorem fst_flying (bs : List Byte) : (flying bs).map Prod.fst = bs := by
  unfold flying
  rw [List.map_map]
  exact List.map_id bs

theorem fst_coded (bs : List Byte) : (coded bs).map Prod.fst = bs := by
  unfold coded
  rw [List.map_map]
  exact List.map_id bs

theorem eq_flying {xs : List (Byte × Bool)} {bs : List Byte} (h : ∀ x ∈ xs, x ∈ flying bs) :
    xs = flying (xs.map Prod.fst) := by
  unfold flying
  rw [List.map_map]
  refine (List.map_id xs).symm.trans (List.map_congr_left fun x hx => Prod.ext rfl ?_)
  obtain ⟨b, _, rfl⟩ := List.mem_map.mp (h x hx)
  rfl

/-- What flies after a part of what was said is the rest of it. -/
theorem flying_rest {r u : List Byte} {up : List (Byte × Bool)} (h : flying r ++ up = flying u) :
    ∃ rest, u = r ++ rest ∧ up = flying rest := by
  refine ⟨up.map Prod.fst, ?_, eq_flying fun x hx => h ▸ List.mem_append_right _ hx⟩
  rw [← fst_flying u, ← h, List.map_append, fst_flying]

/-- No transaction is under way. -/
inductive AtRest : Line → Prop where
  | silent : AtRest ⟨none, [], []⟩
  /-- Of the last transaction, the tablet has yet to hear what is in flight. -/
  | complete {t : Transaction} {h u down : List Byte} : Completes t (h ++ down) u →
      AtRest ⟨some ⟨t, h, u⟩, [], down⟩
  /-- Of the next one, no more than the code was said; it may have been taken in vain. -/
  | code {t : Transaction} {u : List Byte} {up : List (Byte × Bool)} : u <+: [t.code] →
      up = coded u ∨ up = [] → AtRest ⟨some ⟨t, [], u⟩, up, []⟩

/-- The computer has taken `r` of transaction `t`, after its code, and given `s`. -/
inductive InTransfer (t : Transaction) (r s : List Byte) : Line → Prop where
  | during {h u down : List Byte} {up : List (Byte × Bool)} : InOrder t h (t.code :: u) →
      flying r ++ up = flying u → s = h ++ down →
      InTransfer t r s ⟨some ⟨t, h, t.code :: u⟩, up, down⟩
  /-- The tablet has said and heard everything, and says the next code. -/
  | ahead {t' : Transaction} {h u rest down : List Byte} :
      Completes t h (t.code :: (r ++ rest)) → u <+: [t'.code] → s = h ++ down →
      InTransfer t r s ⟨some ⟨t', [], u⟩, flying rest ++ coded u, down⟩

/-- A tablet that has heard everything hears nothing more. -/
def Bounded (t : Transaction) (s : List Byte) : Prop :=
  ∀ h u x, Completes t h u → s = h ++ x → x = []

/-! ## The tablet's own steps -/

theorem not_over_code {t : Transaction} {u : List Byte} : ¬ Talk.Over (some ⟨t, [], u⟩) :=
  fun h => Completes.heard_ne_nil h rfl

theorem AtRest.tablet {l l' : Line} (h : AtRest l) (hs : Line.Tablet l l') : AtRest l' := by
  cases h with
  | silent =>
      cases hs with
      | begins t _ => exact .code List.nil_prefix (Or.inl rfl)
  | complete hc =>
      cases hs with
      | begins t hover =>
          have hdown := Completes.unique hover hc
          subst hdown
          exact .code List.nil_prefix (Or.inl rfl)
      | speaks hbs hf => exact absurd (hc.quiet hf) hbs
      | hears _ _ hdown =>
          rw [hdown, ← List.append_assoc] at hc
          exact .complete hc
  | code hu hup =>
      cases hs with
      | begins t hover => exact absurd hover not_over_code
      | speaks hbs hf =>
          obtain ⟨rfl, rfl⟩ := hf.quiet hbs
          refine .code (List.prefix_refl _) (Or.inl ?_)
          rcases hup with rfl | rfl
          · rfl
          · rfl
      | hears hbs _ hdown => exact absurd (List.append_eq_nil_iff.mp hdown.symm).1 hbs

theorem InTransfer.tablet {t : Transaction} {r s : List Byte} {l l' : Line}
    (h : InTransfer t r s l) (hb : Bounded t s) (hs : Line.Tablet l l') : InTransfer t r s l' := by
  cases h with
  | during hf hup hdown =>
      cases hs with
      | begins t' hover =>
          -- it has said everything, and may be ahead of the transfer
          obtain ⟨rest, rfl, rfl⟩ := flying_rest hup
          rw [← List.append_nil (flying rest)]
          exact .ahead hover List.nil_prefix hdown
      | speaks hbs hf' =>
          refine .during hf' ?_ hdown
          rw [← List.append_assoc, hup]
          exact (flying_append _ _).symm
      | hears _ hf' hdown' =>
          exact .during hf' hup (by rw [hdown, hdown', List.append_assoc])
  | ahead hc hu hdown =>
      cases hs with
      | begins t' hover => exact absurd hover not_over_code
      | speaks hbs hf =>
          obtain ⟨rfl, rfl⟩ := hf.quiet hbs
          rw [List.append_assoc]
          exact .ahead hc (List.prefix_refl _) hdown
      | hears hbs _ hdown' =>
          have hnil := hb _ _ _ hc hdown
          rw [hdown'] at hnil
          exact absurd (List.append_eq_nil_iff.mp hnil).1 hbs

/-! ## The computer's calls -/

/-- What is taken out of what was said before is the start of it. -/
theorem flying_taken {bs up rest : List (Byte × Bool)} {u : List Byte}
    (h : bs ++ up = flying u ++ rest) (hlen : bs.length ≤ u.length) :
    ∃ u', u = bs.map Prod.fst ++ u' ∧ up = flying u' ++ rest := by
  have hle : bs <+: flying u :=
    List.prefix_of_prefix_length_le ⟨up, h⟩ (List.prefix_append _ rest)
      (by rw [flying, List.length_map]; exact hlen)
  obtain ⟨bs', hbs'⟩ := hle
  have hmem : ∀ x ∈ bs, x ∈ flying u := fun x hx => hbs' ▸ List.mem_append_left bs' hx
  have hbs := eq_flying hmem
  rw [hbs] at hbs'
  obtain ⟨u', rfl, rfl⟩ := flying_rest hbs'
  refine ⟨u', rfl, ?_⟩
  rw [flying_append, ← hbs, List.append_assoc] at h
  exact List.append_cancel_left h

/-- A call of the transfer. No more may be taken than the transaction is long. -/
theorem InTransfer.moves {t : Transaction} {r s : List Byte} {l l' : Line} {e : Event winsock}
    {bs : List (Byte × Bool)} (h : InTransfer t r s l) (hm : Line.Moves e bs l l')
    (hle : ∀ rest, r ++ taken e.1 e.2 <+: t.script ++ rest →
      (r ++ taken e.1 e.2).length ≤ t.script.length) :
    InTransfer t (r ++ taken e.1 e.2) (s ++ given e.1 e.2) l' := by
  obtain ⟨talk, up, down⟩ := l'
  obtain ⟨htalk, hup, htaken, hdown⟩ := hm
  dsimp only at htalk hup hdown
  rw [← htaken] at hle ⊢
  cases h with
  | @during h u down₀ up₀ hf hu hs =>
      dsimp only at htalk hup hdown
      subst htalk hup hdown
      obtain ⟨rest, rfl, hrest⟩ := flying_rest hu
      have hlen : bs.length ≤ rest.length := by
        have heq := congrArg List.length hrest
        rw [List.length_append, flying, List.length_map] at heq
        omega
      rw [← List.append_nil (flying rest)] at hrest
      obtain ⟨rest', rfl, hup'⟩ := flying_taken hrest hlen
      refine .during hf ?_ (by rw [hs, List.append_assoc])
      rw [hup', List.append_nil, ← flying_append, List.append_assoc]
  | @ahead t' h u rest down₀ hc hu hs =>
      dsimp only at htalk hup hdown
      subst htalk hdown
      have hscript : r ++ rest = t.script := (List.cons.inj hc.1).2
      have hbs : bs.length ≤ rest.length := by
        -- the bytes of the next code come after the script, so they are not taken
        have hall : r ++ bs.map Prod.fst <+: t.script ++ u := by
          have hfst := congrArg (List.map Prod.fst) hup
          rw [List.map_append, List.map_append, fst_flying, fst_coded] at hfst
          rw [← hscript, List.append_assoc, List.prefix_append_right_inj, hfst]
          exact List.prefix_append _ _
        have hlen := hle u hall
        rw [← hscript, List.length_append, List.length_append, List.length_map] at hlen
        omega
      obtain ⟨rest', rfl, hup'⟩ := flying_taken hup.symm hbs
      rw [hup']
      rw [← List.append_assoc] at hc
      exact .ahead hc hu (by rw [hs, List.append_assoc])

/-- A transfer that has taken everything and given everything is over. -/
theorem InTransfer.ends {t : Transaction} {r s : List Byte} {l : Line} (h : InTransfer t r s l)
    (hb : Bounded t s) (hdone : r <+: t.script → r = t.script ∧ Completes t s (t.code :: t.script)) :
    AtRest l := by
  cases h with
  | @during h u down up hf hu hs =>
      have hle : u <+: t.script := (List.cons_prefix_cons.mp hf.said_isPrefix).2
      obtain ⟨rest, rfl, rfl⟩ := flying_rest hu
      obtain ⟨rfl, hc⟩ := hdone ((List.prefix_append r rest).trans hle)
      have hrest : rest = [] := by
        have hlen := hle.length_le
        rw [List.length_append] at hlen
        exact List.eq_nil_of_length_eq_zero (by omega)
      subst hrest
      rw [hs] at hc
      rw [List.append_nil]
      exact .complete hc
  | @ahead t' h u rest down hc hu hs =>
      have hscript : r ++ rest = t.script := (List.cons.inj hc.1).2
      obtain ⟨hr, _⟩ := hdone ⟨rest, hscript⟩
      rw [hr] at hscript
      have hrest : rest = [] := List.append_right_eq_self.mp hscript
      subst hrest
      have hdown := hb _ _ _ hc hs
      subst hdown
      exact .code hu (Or.inl rfl)

/-- So is one that never took or gave anything. -/
theorem InTransfer.never {t : Transaction} {l : Line} (h : InTransfer t [] [] l) : AtRest l := by
  cases h with
  | @during h u down up hf hu hs =>
      obtain ⟨rfl, rfl⟩ := List.append_eq_nil_iff.mp hs.symm
      have hle := hf.only_code
      have hnil : u = [] := List.prefix_nil.mp (List.cons_prefix_cons.mp hle).2
      subst hnil
      have hup : up = [] := hu
      subst hup
      exact .code (List.prefix_refl _) (Or.inr rfl)
  | @ahead t' h u rest down hc hu hs =>
      exact absurd (List.append_eq_nil_iff.mp hs.symm).1 hc.heard_ne_nil

/-- A byte that is taken from a tablet at rest was sent as a code. -/
theorem AtRest.takes {l l' : Line} {e : Event winsock} {bs : List (Byte × Bool)} (h : AtRest l)
    (hm : Line.Moves e bs l l') (ht : (taken e.1 e.2).length = 1) (hg : given e.1 e.2 = []) :
    bs.map Prod.snd = [true] ∧ ∃ t : Transaction, taken e.1 e.2 = [t.code] ∧ InTransfer t [] [] l' := by
  obtain ⟨talk, up, down⟩ := l'
  obtain ⟨htalk, hup, htaken, hdown⟩ := hm
  have hlen : bs.length = 1 := by rw [← ht, ← htaken, List.length_map]
  have hno : ∀ {up' : List (Byte × Bool)}, [] ≠ bs ++ up' := by
    intro up' heq
    rw [(List.append_eq_nil_iff.mp heq.symm).1] at hlen
    exact absurd hlen (by decide)
  rw [hg, List.append_nil] at hdown
  cases h with
  | silent => exact absurd hup hno
  | complete _ => exact absurd hup hno
  | @code t u up₀ hu hup₀ =>
      dsimp only at htalk hup hdown
      subst htalk hdown
      rcases hup₀ with rfl | rfl
      · rcases List.prefix_cons_iff.mp hu with rfl | ⟨u', rfl, hu'⟩
        · exact absurd hup hno
        · obtain rfl := List.prefix_nil.mp hu'
          obtain ⟨x, rfl⟩ := List.length_eq_one_iff.mp hlen
          obtain ⟨rfl, hup'⟩ := List.cons.inj hup
          obtain rfl := hup'
          refine ⟨rfl, t, htaken.symm, .during ?_ rfl rfl⟩
          exact Or.inl ⟨rfl, List.prefix_refl _⟩
      · exact absurd hup hno

/-! ## The transfers -/

/-- The transfer of the computer for `t` has come to `p`, with `o` on the wire. -/
def Transfer : Transaction → Job (Option (List Byte) × Bool) → Wire → Prop
  | .read _ _ _ _, p, o => Spec wire p o (ReadInv .init) (ReadOutcome .init)
  | .write _ _, p, o => ∃ data : List Byte, data.length < 2 ^ 31 ∧
      Spec wire p o (WriteInv data .init) (WriteOutcome data .init)

theorem Transfer.feed {t : Transaction} {p p' : Job (Option (List Byte) × Bool)} {o : Wire}
    {e : Event winsock} (h : Transfer t p o) (hp : p.feed e = some p')
    (he : Permitted e.1 e.2) : Transfer t p' (o.next e.1 e.2) := by
  cases t with
  | read code payload hcode hsize => exact Spec.feed h hp he
  | write code hcode =>
      obtain ⟨data, hlen, h⟩ := h
      exact ⟨data, hlen, h.feed hp he⟩

/-- The computer gives no more than a transaction is long. -/
theorem Transfer.bounded {t : Transaction} {p : Job (Option (List Byte) × Bool)} {o : Wire}
    (h : Transfer t p o) (hc : o.clean = true) : Bounded t o.out := by
  intro heard said x hcomp hout
  cases t with
  | read code payload hcode hsize =>
      obtain ⟨r, s, hm, hprog⟩ := Spec.inv_of h
      have hle := (hprog hc).given
      have hs : s = heard ++ x := hm.out.symm.trans hout
      have hheard : heard = ack ++ ack := hcomp.2
      have hlen := hle.length_le
      rw [hs, hheard, List.length_append] at hlen
      exact List.eq_nil_of_length_eq_zero (by omega)
  | write code hcode =>
      obtain ⟨data, hlen, h⟩ := h
      obtain ⟨r, s, hm, hprog⟩ := h.inv_of
      have hle := hprog.isPrefix
      have hs : s = heard ++ x := hm.out.symm.trans hout
      obtain ⟨_, hfour, hheard⟩ := hcomp
      rw [hs] at hle
      -- the tablet has heard the size, and believes it
      have hsize : heard.take 4 = le32 data.length := by
        rw [← List.take_append_drop 4 heard, List.append_assoc] at hle
        exact eq_of_isPrefix hle (by rw [List.length_take, le32_length]; omega)
      have hall := hle.length_le
      unfold announced at hheard
      rw [hsize, ofLe32_le32_natCast hlen, Int.toNat_natCast] at hheard
      rw [List.length_append, List.length_append, le32_length] at hall
      exact List.eq_nil_of_length_eq_zero (by omega)

/-- It takes no more either, from a tablet that keeps to the conversation. -/
theorem Transfer.within {t : Transaction} {p : Job (Option (List Byte) × Bool)} {o : Wire}
    (h : Transfer t p o) (hc : o.clean = true) {rest : List Byte}
    (hle : o.inp <+: t.script ++ rest) : o.inp.length ≤ t.script.length := by
  cases t with
  | read code payload hcode hsize =>
      obtain ⟨r, s, hm, hprog⟩ := Spec.inv_of h
      have hr : o.inp = r := hm.inp
      have hscript : (Transaction.read code payload hcode hsize).script =
        le32 payload.length ++ payload := rfl
      rw [hscript] at hle ⊢
      rw [hr] at hle ⊢
      rw [List.length_append, le32_length]
      cases hprog hc with
      | leading _ => exact Nat.zero_le _
      | size hlen => omega
      | sizeAck hlen _ => omega
      | @payload size d hlen hd =>
          -- the size that was taken is the size of the payload
          have hsize' : size = le32 payload.length := by
            rw [List.append_assoc] at hle
            exact eq_of_isPrefix hle hlen
          rw [hsize', ofLe32_le32_natCast hsize] at hd
          unfold toSizeT at hd
          rw [List.length_append]
          omega
  | write code hcode =>
      obtain ⟨data, hlen, h⟩ := h
      obtain ⟨r, s, hm, hprog⟩ := h.inv_of
      have hr : o.inp = r := hm.inp
      have hscript : (Transaction.write code hcode).script.length = 6 := rfl
      have hack : ack.length = 3 := rfl
      rw [hr, hscript]
      cases hprog with
      | size _ => exact Nat.zero_le _
      | sizeAck hlen => omega
      | data _ => omega
      | dataAck hlen =>
          rw [List.length_append]
          omega

/-- When it is over, it has taken the whole transaction, and given its part. -/
theorem Transfer.done {t : Transaction} {res : Option (List Byte) × Bool} {o : Wire}
    (h : Transfer t (.ret res) o) (hc : o.clean = true) (hle : o.inp <+: t.script) :
    o.inp = t.script ∧ Completes t o.out (t.code :: t.script) := by
  cases t with
  | read code payload hcode hsize =>
      cases Spec.post_of h with
      | failed hd =>
          rw [hc] at hd
          exact Bool.noConfusion hd
      | @done size got hm hlen hgot =>
          have hinp : o.inp = size ++ got := hm.inp
          have hle' : size ++ got <+: le32 payload.length ++ payload := hinp ▸ hle
          have hsize' : size = le32 payload.length := eq_of_isPrefix hle' hlen
          subst hsize'
          rw [ofLe32_le32_natCast hsize] at hgot
          have hgot' := ((List.prefix_append_right_inj _).mp hle').eq_of_length (by omega)
          rw [hgot'] at hinp
          exact ⟨hinp, rfl, hm.out⟩
  | write code hcode =>
      obtain ⟨data, hlen, h⟩ := h
      have hle' : o.inp <+: ack ++ ack := hle
      cases h.post_of with
      | failed hd =>
          rw [hc] at hd
          exact Bool.noConfusion hd
      | @refused r d s hm hd hne hr =>
          have hinp : o.inp = r ++ d := hm.inp
          rw [hinp] at hle'
          rcases hr with rfl | rfl
          · exact absurd (eq_ack hle' hd) hne
          · have hd' := (List.prefix_append_right_inj ack).mp hle'
            rw [← List.append_nil ack] at hd'
            exact absurd (eq_ack hd' hd) hne
      | done hm =>
          have hout : o.out = le32 data.length ++ data := hm.out
          have htake : o.out.take 4 = le32 data.length := by
            rw [hout]
            exact List.take_left' rfl
          refine ⟨hm.inp, rfl, ?_, ?_⟩
          · rw [hout, List.length_append, le32_length]
            omega
          · unfold announced
            rw [htake, ofLe32_le32_natCast hlen, Int.toNat_natCast, hout, List.length_append,
              le32_length]

/-- The transfer a code starts. -/
theorem transfer_of_jobOf {t : Transaction} {readWholeFile : Files}
    (hfiles : (localDb readWholeFile).length < 2 ^ 31) :
    ∃ prog, jobOf readWholeFile t.code.toInt8 = some prog ∧ Transfer t prog .init := by
  unfold jobOf
  cases t with
  | read code payload hcode hsize =>
      exact ⟨_, if_pos hcode, internalRead_spec .init⟩
  | write code hcode =>
      -- the two codes there is a file for
      have hwrite : ∃ data, writeData readWholeFile code.toInt8 = some data ∧
          data.length < 2 ^ 31 ∧ ¬ 0 < code.toInt8 := by
        rcases hcode with h | h
        · rw [h]
          exact ⟨_, rfl, hfiles, by decide⟩
        · rw [h]
          exact ⟨_, rfl, by rw [le32_length]; decide, by decide⟩
      obtain ⟨data, hdata, hlen, hneg⟩ := hwrite
      refine ⟨internalWrite data, ?_, data, hlen, internalWrite_spec data .init⟩
      have hcode' : (Transaction.write code hcode).code = code := rfl
      rw [hcode', if_neg hneg, hdata]
      rfl

end ScoutComputer
