import Mathlib.Tactic.Common

/-!
# Interactive programs

A program that talks to its surroundings one call at a time: it either returns,
or makes a call and goes on with the result. A `while` loop is a constructor of
its own, and every iteration starts with a call, so a program is a finite object
even when it may run for ever.

`Spec` is the Hoare triple for such programs. It is relative to an `Observer`,
which says which results the surroundings may give and what is remembered of
them. A `Spec` survives every step of the program, so it can be stored in the
invariant of a larger system in which the program is only one of the parties.
-/

namespace Interact

/-- The calls a program may make, and what each of them returns. -/
structure Interface where
  Call : Type
  Res : Call → Type

/-- One call together with its result. -/
abbrev Event (I : Interface) : Type := (c : I.Call) × I.Res c

/-- A program over an interface. -/
inductive Prog (I : Interface) : Type → Type 1 where
  /-- Return a value. -/
  | ret {α : Type} (a : α) : Prog I α
  /-- Make a call and continue with its result. -/
  | call {α : Type} (c : I.Call) (k : I.Res c → Prog I α) : Prog I α
  /-- Repeat `body` from `s` until it yields a value of `β`, then continue. -/
  | loop {σ β α : Type} (c : σ → I.Call)
      (body : (s : σ) → I.Res (c s) → Prog I (σ ⊕ β)) (s : σ) (k : β → Prog I α) : Prog I α

namespace Prog

variable {I : Interface} {α β γ σ : Type}

/-- Run `p`, then `f` on what it returns. -/
def bind : {α : Type} → Prog I α → {β : Type} → (α → Prog I β) → Prog I β
  | _, ret a, _, f => f a
  | _, call c k, _, f => call c fun r => (k r).bind f
  | _, loop c body s k, _, f => loop c body s fun b => (k b).bind f

instance : Monad (Prog I) where
  pure := ret
  bind p f := p.bind f

/-- Make one call and return its result. -/
def perform (c : I.Call) : Prog I (I.Res c) := call c ret

/-- Repeat `body` until it yields a value. -/
def iterate (c : σ → I.Call) (body : (s : σ) → I.Res (c s) → Prog I (σ ⊕ β)) (s : σ) :
    Prog I β := loop c body s ret

/-- What a program does next: return, or make a call. -/
def resume : {α : Type} → Prog I α → α ⊕ ((c : I.Call) × (I.Res c → Prog I α))
  | _, ret a => .inl a
  | _, call c k => .inr ⟨c, k⟩
  | _, loop c body s k => .inr ⟨c s, fun r => (body s r).bind fun
      | .inl s' => loop c body s' k
      | .inr b => k b⟩

@[simp] theorem pure_def (a : α) : (pure a : Prog I α) = ret a := rfl

@[simp] theorem bind_def (p : Prog I α) (f : α → Prog I β) : p >>= f = p.bind f := rfl

@[simp] theorem bind_ret (a : α) (f : α → Prog I β) : (ret a : Prog I α).bind f = f a := rfl

@[simp] theorem bind_call (c : I.Call) (k : I.Res c → Prog I α) (f : α → Prog I β) :
    (call c k).bind f = call c fun r => (k r).bind f := rfl

@[simp] theorem bind_loop {δ : Type} (c : σ → I.Call)
    (body : (s : σ) → I.Res (c s) → Prog I (σ ⊕ δ)) (s : σ) (k : δ → Prog I α)
    (f : α → Prog I β) :
    (loop c body s k).bind f = loop c body s fun b => (k b).bind f := rfl

@[simp] theorem perform_bind (c : I.Call) (f : I.Res c → Prog I β) :
    (perform c).bind f = call c f := rfl

theorem bind_assoc (p : Prog I α) (f : α → Prog I β) (g : β → Prog I γ) :
    (p.bind f).bind g = p.bind fun a => (f a).bind g := by
  induction p generalizing β γ with
  | ret a => rfl
  | call c k ih => simp only [bind_call, ih]
  | loop c body s k _ ih => simp only [bind_loop, ih]

/-- A program has returned exactly when it is a `ret`. -/
theorem resume_eq_inl {p : Prog I α} {a : α} : p.resume = .inl a ↔ p = ret a := by
  cases p with
  | ret b => simp [resume]
  | call c k => simp [resume]
  | loop c body s k => simp [resume]

theorem resume_bind_of_call {p : Prog I α} {c : I.Call} {k : I.Res c → Prog I α}
    (h : p.resume = .inr ⟨c, k⟩) (f : α → Prog I β) :
    (p.bind f).resume = .inr ⟨c, fun r => (k r).bind f⟩ := by
  cases p with
  | ret a => simp [resume] at h
  | call c' k' =>
      simp only [resume, Sum.inr.injEq, Sigma.mk.injEq] at h
      obtain ⟨rfl, h⟩ := h
      cases eq_of_heq h
      rfl
  | loop c' body s k' =>
      simp only [resume, Sum.inr.injEq, Sigma.mk.injEq] at h
      obtain ⟨rfl, h⟩ := h
      cases eq_of_heq h
      simp only [bind_loop, resume, Sum.inr.injEq, Sigma.mk.injEq, heq_eq_eq, true_and]
      funext r
      rw [bind_assoc]
      congr 1
      funext x
      cases x <;> rfl

/-- The value a program has returned, if it has. -/
def result? (p : Prog I α) : Option α :=
  match p.resume with
  | .inl a => some a
  | .inr _ => none

@[simp] theorem result?_ret (a : α) : (ret a : Prog I α).result? = some a := rfl

theorem result?_eq_some {p : Prog I α} {a : α} : p.result? = some a ↔ p = ret a := by
  unfold result?
  cases h : p.resume with
  | inl b =>
      have hp := resume_eq_inl.mp h
      subst hp
      simp
  | inr ck =>
      have : p ≠ ret a := fun hp => by rw [hp] at h; simp [resume] at h
      simp [this]

/-! ## Running against given results -/

variable [DecidableEq I.Call]

/-- Answer the call the program is making. -/
def feed (p : Prog I α) (e : Event I) : Option (Prog I α) :=
  match p.resume with
  | .inl _ => none
  | .inr ⟨c, k⟩ => if h : e.1 = c then some (k (h ▸ e.2)) else none

/-- The program left after a whole list of calls and results. -/
def after (p : Prog I α) : List (Event I) → Option (Prog I α)
  | [] => some p
  | e :: t => (p.feed e).bind fun q => q.after t

theorem feed_eq_some {p q : Prog I α} {e : Event I} :
    p.feed e = some q ↔ ∃ k, p.resume = .inr ⟨e.1, k⟩ ∧ q = k e.2 := by
  unfold feed
  cases h : p.resume with
  | inl a => simp
  | inr ck =>
      obtain ⟨c, k⟩ := ck
      constructor
      · intro hq
        dsimp only at hq
        split at hq
        · rename_i hc
          subst hc
          exact ⟨k, rfl, (Option.some.inj hq).symm⟩
        · exact absurd hq (by simp)
      · rintro ⟨k', hk', rfl⟩
        simp only [Sum.inr.injEq, Sigma.mk.injEq] at hk'
        obtain ⟨rfl, hk⟩ := hk'
        cases eq_of_heq hk
        simp

@[simp] theorem after_nil (p : Prog I α) : p.after [] = some p := rfl

theorem after_cons {p q : Prog I α} {e : Event I} {t : List (Event I)} :
    p.after (e :: t) = some q ↔ ∃ p', p.feed e = some p' ∧ p'.after t = some q := by
  simp only [after, Option.bind_eq_some_iff]

end Prog

/-! ## Specifications -/

/-- What may happen around a program, and what is remembered of it. -/
structure Observer (I : Interface) (O : Type) where
  /-- The results the surroundings may give to a call. -/
  allow : O → (c : I.Call) → I.Res c → Prop
  /-- What is remembered once the call has been answered. -/
  next : O → (c : I.Call) → I.Res c → O

section Spec

variable {I : Interface} {O α β γ σ : Type} (V : Observer I O)

/--
`SpecN V n p o inv post`: in the next `n` calls of `p`, started when `o` has been
observed, `inv` holds throughout and `post` holds when `p` returns.
-/
def SpecN : Nat → Prog I α → O → (O → Prop) → (O → α → Prop) → Prop
  | 0, _, _, _, _ => True
  | n + 1, p, o, inv, post => inv o ∧
      match p.resume with
      | .inl a => post o a
      | .inr ⟨c, k⟩ => ∀ r, V.allow o c r → SpecN n (k r) (V.next o c r) inv post

/-- `p` keeps `inv` at every call and establishes `post` if it returns. -/
def Spec (p : Prog I α) (o : O) (inv : O → Prop) (post : O → α → Prop) : Prop :=
  ∀ n, SpecN V n p o inv post

variable {V}

theorem SpecN.of_inr {n : Nat} {p : Prog I α} {o : O} {inv : O → Prop} {post : O → α → Prop}
    {c : I.Call} {k : I.Res c → Prog I α} (hp : p.resume = .inr ⟨c, k⟩) :
    SpecN V (n + 1) p o inv post ↔
      inv o ∧ ∀ r, V.allow o c r → SpecN V n (k r) (V.next o c r) inv post := by
  simp only [SpecN, hp]

theorem SpecN.mono {n : Nat} {p : Prog I α} {o : O} {inv inv' : O → Prop}
    {post post' : O → α → Prop} (hi : ∀ o, inv o → inv' o)
    (hq : ∀ o a, inv o → post o a → post' o a)
    (h : SpecN V n p o inv post) : SpecN V n p o inv' post' := by
  induction n generalizing p o with
  | zero => trivial
  | succ n ih =>
      cases hp : p.resume with
      | inl a =>
          simp only [SpecN, hp] at h ⊢
          exact ⟨hi o h.1, hq o a h.1 h.2⟩
      | inr ck =>
          obtain ⟨c, k⟩ := ck
          rw [SpecN.of_inr hp] at h ⊢
          exact ⟨hi o h.1, fun r hr => ih (h.2 r hr)⟩

theorem SpecN.and {n : Nat} {p : Prog I α} {o : O} {inv inv' : O → Prop}
    {post post' : O → α → Prop} (h : SpecN V n p o inv post) (h' : SpecN V n p o inv' post') :
    SpecN V n p o (fun o => inv o ∧ inv' o) (fun o a => post o a ∧ post' o a) := by
  induction n generalizing p o with
  | zero => trivial
  | succ n ih =>
      cases hp : p.resume with
      | inl a =>
          simp only [SpecN, hp] at h h' ⊢
          exact ⟨⟨h.1, h'.1⟩, h.2, h'.2⟩
      | inr ck =>
          obtain ⟨c, k⟩ := ck
          rw [SpecN.of_inr hp] at h h' ⊢
          exact ⟨⟨h.1, h'.1⟩, fun r hr => ih (h.2 r hr) (h'.2 r hr)⟩

/-- Sequencing, with the second program checked only as far as the budget reaches. -/
theorem SpecN.bind {n : Nat} {p : Prog I α} {f : α → Prog I β} {o : O} {inv : O → Prop}
    {mid : O → α → Prop} {post : O → β → Prop} (hp : SpecN V n p o inv mid)
    (hf : ∀ m, m ≤ n → ∀ o a, mid o a → SpecN V m (f a) o inv post) :
    SpecN V n (p.bind f) o inv post := by
  induction n generalizing p o with
  | zero => trivial
  | succ n ih =>
      cases hr : p.resume with
      | inl a =>
          have hp' := Prog.resume_eq_inl.mp hr
          subst hp'
          exact hf (n + 1) (Nat.le_refl _) o a hp.2
      | inr ck =>
          obtain ⟨c, k⟩ := ck
          rw [SpecN.of_inr hr] at hp
          rw [SpecN.of_inr (Prog.resume_bind_of_call hr f)]
          exact ⟨hp.1, fun r hr' => ih (hp.2 r hr')
            (fun m hm => hf m (Nat.le_succ_of_le hm))⟩

namespace Spec

theorem ret {a : α} {o : O} {inv : O → Prop} {post : O → α → Prop}
    (hi : inv o) (hp : post o a) : Spec V (.ret a) o inv post := by
  intro n
  cases n with
  | zero => trivial
  | succ n => exact ⟨hi, hp⟩

theorem call {c : I.Call} {k : I.Res c → Prog I α} {o : O} {inv : O → Prop}
    {post : O → α → Prop} (hi : inv o)
    (h : ∀ r, V.allow o c r → Spec V (k r) (V.next o c r) inv post) :
    Spec V (.call c k) o inv post := by
  intro n
  cases n with
  | zero => trivial
  | succ n => exact ⟨hi, fun r hr => h r hr n⟩

/-- The rule of consequence. -/
theorem mono {p : Prog I α} {o : O} {inv inv' : O → Prop} {post post' : O → α → Prop}
    (hi : ∀ o, inv o → inv' o) (hq : ∀ o a, inv o → post o a → post' o a)
    (h : Spec V p o inv post) : Spec V p o inv' post' :=
  fun n => (h n).mono hi hq

/-- The rule of conjunction. -/
theorem and {p : Prog I α} {o : O} {inv inv' : O → Prop} {post post' : O → α → Prop}
    (h : Spec V p o inv post) (h' : Spec V p o inv' post') :
    Spec V p o (fun o => inv o ∧ inv' o) (fun o a => post o a ∧ post' o a) :=
  fun n => (h n).and (h' n)

/-- The rule of sequencing. -/
theorem bind {p : Prog I α} {f : α → Prog I β} {o : O} {inv : O → Prop}
    {mid : O → α → Prop} {post : O → β → Prop} (hp : Spec V p o inv mid)
    (hf : ∀ o a, mid o a → Spec V (f a) o inv post) : Spec V (p.bind f) o inv post :=
  fun n => (hp n).bind fun m _ o a h => hf o a h m

/-- **The loop rule.** `J` holds whenever an iteration starts. -/
theorem loop {δ : Type} {c : σ → I.Call} {body : (s : σ) → I.Res (c s) → Prog I (σ ⊕ δ)}
    {k : δ → Prog I α} {s : σ} {o : O} {inv : O → Prop} {post : O → α → Prop}
    (J : σ → O → Prop) (h0 : J s o)
    (hJ : ∀ s o, J s o → inv o ∧ ∀ r, V.allow o (c s) r →
      Spec V (body s r) (V.next o (c s) r) inv fun o' x =>
        match x with
        | .inl s' => J s' o'
        | .inr b => Spec V (k b) o' inv post) :
    Spec V (.loop c body s k) o inv post := by
  intro n
  induction n using Nat.strongRecOn generalizing s o with
  | ind n ih =>
      cases n with
      | zero => trivial
      | succ n =>
          refine ⟨(hJ s o h0).1, fun r hr => ?_⟩
          refine SpecN.bind ((hJ s o h0).2 r hr n) ?_
          intro m hm o' x hx
          cases x with
          | inl s' => exact ih m (Nat.lt_succ_of_le hm) hx
          | inr b => exact hx m

/-- Nothing is asked of a program. -/
theorem trivial (p : Prog I α) (o : O) : Spec V p o (fun _ => True) fun _ _ => True := by
  intro n
  induction n generalizing p o with
  | zero => exact True.intro
  | succ n ih =>
      refine ⟨True.intro, ?_⟩
      cases p.resume with
      | inl a => exact True.intro
      | inr ck => exact fun r _ => ih (ck.2 r) (V.next o ck.1 r)

/-- A specification implies its invariant here and now. -/
theorem inv_of {p : Prog I α} {o : O} {inv : O → Prop} {post : O → α → Prop}
    (h : Spec V p o inv post) : inv o := (h 1).1

theorem post_of {a : α} {o : O} {inv : O → Prop} {post : O → α → Prop}
    (h : Spec V (.ret a) o inv post) : post o a := (h 1).2

/-- A specification survives one step of the program. -/
theorem resume {p : Prog I α} {o : O} {inv : O → Prop} {post : O → α → Prop}
    {c : I.Call} {k : I.Res c → Prog I α} (h : Spec V p o inv post)
    (hp : p.resume = .inr ⟨c, k⟩) {r : I.Res c} (hr : V.allow o c r) :
    Spec V (k r) (V.next o c r) inv post :=
  fun n => ((SpecN.of_inr hp).mp (h (n + 1))).2 r hr

theorem feed [DecidableEq I.Call] {p q : Prog I α} {o : O} {inv : O → Prop}
    {post : O → α → Prop} {e : Event I} (h : Spec V p o inv post)
    (hq : p.feed e = some q) (he : V.allow o e.1 e.2) :
    Spec V q (V.next o e.1 e.2) inv post := by
  obtain ⟨k, hk, rfl⟩ := Prog.feed_eq_some.mp hq
  exact h.resume hk he

end Spec

/-! ## Programs that leave an observer alone -/

/-- `p` does nothing that is remembered. -/
def Keeps (V : Observer I O) (p : Prog I α) : Prop := ∀ o, Spec V p o (· = o) fun o' _ => o' = o

namespace Keeps

theorem ret (a : α) : Keeps V (.ret a) := fun _ => Spec.ret rfl rfl

theorem bind {p : Prog I α} {f : α → Prog I β} (hp : Keeps V p) (hf : ∀ a, Keeps V (f a)) :
    Keeps V (p.bind f) := by
  intro o
  refine Spec.bind (hp o) fun o' a ho => ?_
  subst ho
  exact hf a o'

/-- Sequencing after a program that leaves the observer alone. -/
theorem bind_spec {p : Prog I α} {f : α → Prog I β} {o : O} {inv : O → Prop}
    {post : O → β → Prop} (hp : Keeps V p) (hi : inv o) (hf : ∀ a, Spec V (f a) o inv post) :
    Spec V (p.bind f) o inv post := by
  refine Spec.bind ((hp o).mono (fun o' ho => ?_) fun _ _ _ h => h) fun o' a ho => ?_
  · rw [ho]
    exact hi
  · subst ho
    exact hf a

theorem perform {c : I.Call} (hc : ∀ o r, V.next o c r = o) : Keeps V (Prog.perform c) := by
  intro o
  refine Spec.call rfl fun r _ => ?_
  rw [hc]
  exact Spec.ret rfl rfl

theorem iterate {c : σ → I.Call} {body : (s : σ) → I.Res (c s) → Prog I (σ ⊕ β)} {s : σ}
    (hc : ∀ s o r, V.next o (c s) r = o) (hbody : ∀ s r, Keeps V (body s r)) :
    Keeps V (Prog.iterate c body s) := by
  intro o
  refine Spec.loop (fun _ o' => o' = o) rfl ?_
  intro s o' ho
  subst ho
  refine ⟨rfl, fun r _ => ?_⟩
  rw [hc]
  refine (hbody s r o').mono (fun _ h => h) ?_
  intro o'' x _ ho''
  subst ho''
  cases x with
  | inl s' => rfl
  | inr b => exact Spec.ret rfl rfl

end Keeps

/-! ## Whole runs -/

/-- What is remembered after a list of answered calls. -/
def Observer.run (V : Observer I O) : O → List (Event I) → O
  | o, [] => o
  | o, e :: t => V.run (V.next o e.1 e.2) t

/-- Every answer in the list was one the surroundings may give. -/
def Observer.Allows (V : Observer I O) : O → List (Event I) → Prop
  | _, [] => True
  | o, e :: t => V.allow o e.1 e.2 ∧ V.Allows (V.next o e.1 e.2) t

theorem Spec.after [DecidableEq I.Call] {p q : Prog I α} {o : O} {inv : O → Prop}
    {post : O → α → Prop} {t : List (Event I)} (h : Spec V p o inv post)
    (hq : p.after t = some q) (ht : V.Allows o t) : Spec V q (V.run o t) inv post := by
  induction t generalizing p o with
  | nil => cases hq; exact h
  | cons e t ih =>
      obtain ⟨p', hp', hq'⟩ := Prog.after_cons.mp hq
      exact ih (h.feed hp' ht.1) hq' ht.2

end Spec

end Interact
