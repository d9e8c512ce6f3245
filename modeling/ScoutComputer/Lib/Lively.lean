import ScoutComputer.Lib.Interact

/-!
# Programs that can always go on

`Spec` says what a program does if it returns. `Live` says in addition that it can
return: at every point of every run, whatever its calls have returned so far, finitely
many answers that bring the program on take it to its end. Answers that only make it try
again may come at any time and any number of times, so a program that polls is live
although it has runs that never end. What it may call for on the way is up to the `Pace`.
-/

namespace Interact

/-- An observer that also says which calls may be made, and which answers bring a program on. -/
structure Pace (I : Interface) (O : Type) extends Observer I O where
  asks : O → I.Call → Prop
  work : (c : I.Call) → I.Res c → Prop

variable {I : Interface} {O α β σ : Type}

/-- `p` returns, with `post`, if every answer from now on brings it on. -/
inductive Swift (V : Pace I O) (post : O → α → Prop) : Prog I α → O → Prop where
  | ret {a : α} {o : O} : post o a → Swift V post (.ret a) o
  | call {p : Prog I α} {o : O} {c : I.Call} {k : I.Res c → Prog I α} :
      p.resume = .inr ⟨c, k⟩ → V.asks o c →
      (∀ r, V.allow o c r → V.work c r → Swift V post (k r) (V.next o c r)) → Swift V post p o

/-- In the next `n` calls of `p`, it is always the case that it could return. -/
def LiveN (V : Pace I O) (post : O → α → Prop) : Nat → Prog I α → O → Prop
  | 0, p, o => Swift V post p o
  | n + 1, p, o => Swift V post p o ∧ ∀ c k, p.resume = .inr ⟨c, k⟩ →
      ∀ r, V.allow o c r → LiveN V post n (k r) (V.next o c r)

/-- At every point of every run of `p`, it can still return, with `post`. -/
def Live (V : Pace I O) (p : Prog I α) (o : O) (post : O → α → Prop) : Prop :=
  ∀ n, LiveN V post n p o

variable {V : Pace I O}

namespace Swift

theorem mono {p : Prog I α} {o : O} {post post' : O → α → Prop}
    (hq : ∀ o a, post o a → post' o a) (h : Swift V post p o) : Swift V post' p o := by
  induction h with
  | ret h => exact .ret (hq _ _ h)
  | call hp hask _ ih => exact .call hp hask ih

theorem bind {p : Prog I α} {f : α → Prog I β} {o : O} {mid : O → α → Prop}
    {post : O → β → Prop} (hp : Swift V mid p o)
    (hf : ∀ o a, mid o a → Swift V post (f a) o) : Swift V post (p.bind f) o := by
  induction hp with
  | ret h => exact hf _ _ h
  | call hp hask _ ih => exact .call (Prog.resume_bind_of_call hp f) hask ih

theorem post_of {a : α} {o : O} {post : O → α → Prop} (h : Swift V post (.ret a) o) :
    post o a := by
  cases h with
  | ret h => exact h
  | call hp _ _ => exact absurd hp (by simp [Prog.resume])

/-- What a program that has not returned calls for. -/
theorem asks_of {p : Prog I α} {o : O} {post : O → α → Prop} {c : I.Call}
    {k : I.Res c → Prog I α} (h : Swift V post p o) (hp : p.resume = .inr ⟨c, k⟩) :
    V.asks o c := by
  cases h with
  | ret h => exact absurd hp (by simp [Prog.resume])
  | call hp' hask _ =>
      rw [hp, Sum.inr.injEq, Sigma.mk.injEq] at hp'
      obtain ⟨rfl, _⟩ := hp'
      exact hask

/-- Where every call has an answer that brings the program on, some run is finite. -/
theorem ends [DecidableEq I.Call] (hans : ∀ o c, ∃ r, V.allow o c r ∧ V.work c r)
    {p : Prog I α} {o : O} {post : O → α → Prop} (h : Swift V post p o) :
    ∃ t a, p.after t = some (.ret a) := by
  induction h with
  | ret _ => exact ⟨[], _, rfl⟩
  | @call p o c k hp _ _ ih =>
      obtain ⟨r, hr, hw⟩ := hans o c
      obtain ⟨t, a, ht⟩ := ih r hr hw
      exact ⟨⟨c, r⟩ :: t, a, Prog.after_cons.mpr ⟨_, Prog.feed_eq_some.mpr ⟨k, hp, rfl⟩, ht⟩⟩

end Swift

theorem LiveN.swift {n : Nat} {p : Prog I α} {o : O} {post : O → α → Prop}
    (h : LiveN V post n p o) : Swift V post p o := by
  cases n with
  | zero => exact h
  | succ n => exact h.1

theorem LiveN.mono {n : Nat} {p : Prog I α} {o : O} {post post' : O → α → Prop}
    (hq : ∀ o a, post o a → post' o a) (h : LiveN V post n p o) : LiveN V post' n p o := by
  induction n generalizing p o with
  | zero => exact Swift.mono hq h
  | succ n ih => exact ⟨h.1.mono hq, fun c k hp r hr => ih (h.2 c k hp r hr)⟩

/-- Sequencing, with the second program checked only as far as the budget reaches. -/
theorem LiveN.bind {n : Nat} {p : Prog I α} {f : α → Prog I β} {o : O} {mid : O → α → Prop}
    {post : O → β → Prop} (hp : LiveN V mid n p o)
    (hf : ∀ m, m ≤ n → ∀ o a, mid o a → LiveN V post m (f a) o) :
    LiveN V post n (p.bind f) o := by
  induction n generalizing p o with
  | zero => exact Swift.bind hp fun o a h => hf 0 (Nat.le_refl 0) o a h
  | succ n ih =>
      cases hr : p.resume with
      | inl a =>
          rw [Prog.resume_eq_inl.mp hr] at hp ⊢
          exact hf (n + 1) (Nat.le_refl _) o a hp.swift.post_of
      | inr ck =>
          obtain ⟨c, k⟩ := ck
          have hb := Prog.resume_bind_of_call hr f
          refine ⟨hp.swift.bind fun o a h => (hf 0 (Nat.zero_le _) o a h).swift, ?_⟩
          intro c' k' hp' r hr'
          rw [hb, Sum.inr.injEq, Sigma.mk.injEq] at hp'
          obtain ⟨rfl, hk⟩ := hp'
          cases eq_of_heq hk
          exact ih (hp.2 c k hr r hr') fun m hm => hf m (Nat.le_succ_of_le hm)

namespace Live

variable {post : O → α → Prop} {p : Prog I α} {o : O}

theorem swift (h : Live V p o post) : Swift V post p o := h 0

theorem ret {a : α} (h : post o a) : Live V (.ret a) o post := by
  intro n
  cases n with
  | zero => exact Swift.ret h
  | succ n => exact ⟨.ret h, fun c k hp => absurd hp (by simp [Prog.resume])⟩

/-- A program is live if it may call for what it calls for, and is live after every answer. -/
theorem of_resume {c : I.Call} {k : I.Res c → Prog I α} (hp : p.resume = .inr ⟨c, k⟩)
    (hask : V.asks o c) (h : ∀ r, V.allow o c r → Live V (k r) (V.next o c r) post) :
    Live V p o post := by
  have hs : Swift V post p o := .call hp hask fun r hr _ => (h r hr).swift
  intro n
  cases n with
  | zero => exact hs
  | succ n =>
      refine ⟨hs, fun c' k' hp' r hr => ?_⟩
      rw [hp, Sum.inr.injEq, Sigma.mk.injEq] at hp'
      obtain ⟨rfl, hk⟩ := hp'
      cases eq_of_heq hk
      exact h r hr n

theorem call {c : I.Call} {k : I.Res c → Prog I α} (hask : V.asks o c)
    (h : ∀ r, V.allow o c r → Live V (k r) (V.next o c r) post) :
    Live V (.call c k) o post := of_resume rfl hask h

/-- The rule of consequence. -/
theorem mono {post' : O → α → Prop} (hq : ∀ o a, post o a → post' o a)
    (h : Live V p o post) : Live V p o post' := fun n => (h n).mono hq

/-- The rule of sequencing. -/
theorem bind {f : α → Prog I β} {post' : O → β → Prop} (hp : Live V p o post)
    (hf : ∀ o a, post o a → Live V (f a) o post') : Live V (p.bind f) o post' :=
  fun n => (hp n).bind fun m _ o a h => hf o a h m

/-- Liveness survives one step of the program. -/
theorem resume {c : I.Call} {k : I.Res c → Prog I α} (h : Live V p o post)
    (hp : p.resume = .inr ⟨c, k⟩) {r : I.Res c} (hr : V.allow o c r) :
    Live V (k r) (V.next o c r) post := fun n => (h (n + 1)).2 c k hp r hr

theorem feed [DecidableEq I.Call] {q : Prog I α} {e : Event I} (h : Live V p o post)
    (hq : p.feed e = some q) (he : V.allow o e.1 e.2) :
    Live V q (V.next o e.1 e.2) post := by
  obtain ⟨k, hk, rfl⟩ := Prog.feed_eq_some.mp hq
  exact h.resume hk he

/--
**The loop rule.** `J` holds whenever an iteration starts, and an iteration that starts with
an answer that brings the program on lowers `μ`.
-/
theorem loop {δ : Type} {c : σ → I.Call} {body : (s : σ) → I.Res (c s) → Prog I (σ ⊕ δ)}
    {k : δ → Prog I α} {s : σ} (J : σ → O → Prop) (μ : σ → O → Nat) (h0 : J s o)
    (hJ : ∀ s o, J s o → V.asks o (c s) ∧ ∀ r, V.allow o (c s) r →
      Live V (body s r) (V.next o (c s) r) fun o' x =>
        match x with
        | .inl s' => J s' o' ∧ (V.work (c s) r → μ s' o' < μ s o)
        | .inr b => Live V (k b) o' post) :
    Live V (.loop c body s k) o post := by
  -- from every start of an iteration the loop can end, by induction on the measure
  have hswift : ∀ m s o, μ s o = m → J s o → Swift V post (.loop c body s k) o := by
    intro m
    induction m using Nat.strongRecOn with
    | ind m ih =>
        intro s o hm h
        refine .call rfl (hJ s o h).1 fun r hr hw => ?_
        refine Swift.bind ((hJ s o h).2 r hr).swift fun o' x hx => ?_
        cases x with
        | inl s' => exact ih _ (hm ▸ hx.2 hw) s' o' rfl hx.1
        | inr b => exact hx.swift
  intro n
  induction n using Nat.strongRecOn generalizing s o with
  | ind n ih =>
      cases n with
      | zero => exact hswift _ s o rfl h0
      | succ n =>
          refine ⟨hswift _ s o rfl h0, fun c' k' hp r hr => ?_⟩
          rw [Prog.resume, Sum.inr.injEq, Sigma.mk.injEq] at hp
          obtain ⟨rfl, hk⟩ := hp
          cases eq_of_heq hk
          refine LiveN.bind ((hJ s o h0).2 r hr n) fun m hm o' x hx => ?_
          cases x with
          | inl s' => exact ih m (Nat.lt_succ_of_le hm) hx.1
          | inr b => exact hx m

end Live

end Interact
