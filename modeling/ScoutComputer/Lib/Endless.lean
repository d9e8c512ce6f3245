import ScoutComputer.Lib.Interact

/-!
# Programs and surroundings that never stop answering

The surroundings have an answer to every call at every time. A program that is run
against them returns at some time, or makes calls for ever. Some answers only tell the
program to try again: a program is patient if it then makes the same call, and blocked
for good if it never gets another answer to it.
-/

namespace Interact

variable {I : Interface} {α β σ : Type}

/-- What each call returns, if it is made at time `n`. -/
abbrev Answers (I : Interface) : Type := Nat → (c : I.Call) → I.Res c

/-- `p`, started at time `i`, has become `q` at time `j`. -/
inductive Reaches (env : Answers I) : Nat → Prog I α → Nat → Prog I α → Prop where
  | refl {i : Nat} {p : Prog I α} : Reaches env i p i p
  | step {i j : Nat} {p q : Prog I α} {c : I.Call} {k : I.Res c → Prog I α} :
      p.resume = .inr ⟨c, k⟩ → Reaches env (i + 1) (k (env i c)) j q → Reaches env i p j q

/-- `p`, started at time `i`, returns. -/
def Returns (env : Answers I) (i : Nat) (p : Prog I α) : Prop := ∃ j a, Reaches env i p j (.ret a)

variable {env : Answers I}

namespace Reaches

theorem trans {i j k : Nat} {p q r : Prog I α} (h : Reaches env i p j q)
    (h' : Reaches env j q k r) : Reaches env i p k r := by
  induction h with
  | refl => exact h'
  | step hp _ ih => exact .step hp (ih h')

theorem bind {i j : Nat} {p q : Prog I α} (h : Reaches env i p j q) (f : α → Prog I β) :
    Reaches env i (p.bind f) j (q.bind f) := by
  induction h with
  | refl => exact .refl
  | step hp _ ih => exact .step (Prog.resume_bind_of_call hp f) ih

/-- What is reached on the way to a return can still return. -/
theorem to_ret {i j k : Nat} {p q : Prog I α} {a : α} (h : Reaches env i p j q)
    (h' : Reaches env i p k (.ret a)) : Reaches env j q k (.ret a) := by
  induction h with
  | refl => exact h'
  | step hp _ ih =>
      cases h' with
      | refl => exact absurd hp (by simp [Prog.resume])
      | step hp' hrest =>
          rw [hp] at hp'
          cases hp'
          exact ih hrest

end Reaches

theorem Returns.ret (i : Nat) (a : α) : Returns env i (.ret a) := ⟨i, a, .refl⟩

theorem Returns.of_reaches {i j : Nat} {p q : Prog I α} (h : Reaches env i p j q)
    (hq : Returns env j q) : Returns env i p := by
  obtain ⟨m, a, ha⟩ := hq
  exact ⟨m, a, h.trans ha⟩

theorem Returns.call {i : Nat} {p : Prog I α} {c : I.Call} {k : I.Res c → Prog I α}
    (hp : p.resume = .inr ⟨c, k⟩) (h : Returns env (i + 1) (k (env i c))) : Returns env i p :=
  .of_reaches (.step hp .refl) h

theorem Returns.perform (i : Nat) (c : I.Call) : Returns env i (Prog.perform c) :=
  .call rfl (Returns.ret (i + 1) (env i c))

theorem Returns.bind {p : Prog I α} {f : α → Prog I β} (hp : ∀ i, Returns env i p)
    (hf : ∀ a i, Returns env i (f a)) (i : Nat) : Returns env i (p.bind f) := by
  obtain ⟨j, a, ha⟩ := hp i
  have hreach : Reaches env i (p.bind f) j (f a) := ha.bind f
  exact .of_reaches hreach (hf a j)

/-! ## Waiting -/

variable (blocked : (c : I.Call) → I.Res c → Prop)

/-- `p` comes to a call that is answered with "try again" from then on. -/
def Blocks (env : Answers I) (i : Nat) (p : Prog I α) : Prop :=
  ∃ j q c k, Reaches env i p j q ∧ q.resume = .inr ⟨c, k⟩ ∧ ∀ n, j ≤ n → blocked c (env n c)

/-- Told to try again, the program makes the same call. Only the head of a loop waits. -/
def Patient : {α : Type} → Prog I α → Prop
  | _, .ret _ => True
  | _, .call c k => (∀ r, ¬ blocked c r) ∧ ∀ r, Patient (k r)
  | _, .loop c body _ k => (∀ s r, Patient (body s r)) ∧
      (∀ s r, blocked (c s) r → body s r = .ret (.inl s)) ∧ ∀ b, Patient (k b)

variable {blocked}

theorem Patient.bind {p : Prog I α} {f : α → Prog I β} (hp : Patient blocked p)
    (hf : ∀ a, Patient blocked (f a)) : Patient blocked (p.bind f) := by
  induction p generalizing β with
  | ret a => exact hf a
  | call c k ih => exact ⟨hp.1, fun r => ih r (hp.2 r) hf⟩
  | loop c body s k _ ih => exact ⟨hp.1, hp.2.1, fun b => ih b (hp.2.2 b) hf⟩

theorem Patient.perform {c : I.Call} (h : ∀ r, ¬ blocked c r) :
    Patient blocked (Prog.perform c) := ⟨h, fun _ => trivial⟩

theorem Patient.iterate {c : σ → I.Call} {body : (s : σ) → I.Res (c s) → Prog I (σ ⊕ β)}
    (hwait : ∀ s r, blocked (c s) r → body s r = .ret (.inl s))
    (hbody : ∀ s r, Patient blocked (body s r)) (s : σ) :
    Patient blocked (Prog.iterate c body s) := ⟨hbody, hwait, fun _ => trivial⟩

/-- Patience survives a step, and a blocked step changes nothing. -/
theorem Patient.resume {p : Prog I α} {c : I.Call} {k : I.Res c → Prog I α}
    (hp : Patient blocked p) (hr : p.resume = .inr ⟨c, k⟩) (r : I.Res c) :
    Patient blocked (k r) ∧ (blocked c r → k r = p) := by
  cases p with
  | ret a => exact absurd hr (by simp [Prog.resume])
  | call c' k' =>
      cases hr
      exact ⟨hp.2 r, fun hb => absurd hb (hp.1 r)⟩
  | loop c' body s k' =>
      cases hr
      refine ⟨(hp.1 s r).bind ?_, fun hb => ?_⟩
      · intro x
        cases x with
        | inl s' => exact hp
        | inr b => exact hp.2.2 b
      · dsimp only
        rw [hp.2.1 s r hb]
        rfl

theorem Patient.reaches {i j : Nat} {p q : Prog I α} (hp : Patient blocked p)
    (h : Reaches env i p j q) : Patient blocked q := by
  induction h with
  | refl => exact hp
  | step hr _ ih => exact ih (hp.resume hr _).1

/-- A patient program that is blocked for good does not return. -/
theorem Patient.not_returns {i : Nat} {p : Prog I α} (hp : Patient blocked p)
    (h : Blocks blocked env i p) : ¬ Returns env i p := by
  obtain ⟨j, q, c, k, hq, hr, hb⟩ := h
  have hpat := hp.reaches hq
  have hnever : ∀ {m n : Nat} {a : α} {x y : Prog I α}, Reaches env m x n y → x = q →
      y = .ret a → j ≤ m → False := by
    intro m n a x y hxy
    induction hxy with
    | refl =>
        intro hx hy _
        rw [← hx, hy] at hr
        exact absurd hr (by simp [Prog.resume])
    | step hx' _ ih =>
        intro hx hy hjm
        subst hx
        rw [hr] at hx'
        cases hx'
        exact ih ((hpat.resume hr _).2 (hb _ hjm)) hy (by omega)
  rintro ⟨m, a, ha⟩
  exact hnever (hq.to_ret ha) rfl rfl (Nat.le_refl j)

/-! ## Programs that return unless they are blocked -/

/-- Whenever `p` is started, it returns or is blocked for good. -/
def Ends (blocked : (c : I.Call) → I.Res c → Prop) (env : Answers I) (p : Prog I α) : Prop :=
  ∀ i, Returns env i p ∨ Blocks blocked env i p

theorem Blocks.of_reaches {i j : Nat} {p q : Prog I α} (h : Reaches env i p j q)
    (hq : Blocks blocked env j q) : Blocks blocked env i p := by
  obtain ⟨m, q', c, k, hm, hr, hb⟩ := hq
  exact ⟨m, q', c, k, h.trans hm, hr, hb⟩

theorem Blocks.bind {i : Nat} {p : Prog I α} (h : Blocks blocked env i p) (f : α → Prog I β) :
    Blocks blocked env i (p.bind f) := by
  obtain ⟨j, q, c, k, hq, hr, hb⟩ := h
  exact ⟨j, q.bind f, c, _, hq.bind f, Prog.resume_bind_of_call hr f, hb⟩

namespace Ends

theorem of_returns {p : Prog I α} (h : ∀ i, Returns env i p) : Ends blocked env p :=
  fun i => Or.inl (h i)

theorem ret (a : α) : Ends blocked env (.ret a) := of_returns fun i => Returns.ret i a

theorem bind {p : Prog I α} {f : α → Prog I β} (hp : Ends blocked env p)
    (hf : ∀ a, Ends blocked env (f a)) : Ends blocked env (p.bind f) := by
  intro i
  rcases hp i with ⟨j, a, ha⟩ | hb
  · have hreach : Reaches env i (p.bind f) j (f a) := ha.bind f
    rcases hf a j with hr | hb
    · exact Or.inl (.of_reaches hreach hr)
    · exact Or.inr (.of_reaches hreach hb)
  · exact Or.inr (hb.bind f)

theorem perform (c : I.Call) : Ends blocked env (Prog.perform c) :=
  of_returns fun i => Returns.perform i c

/--
A loop whose iterations make no further calls ends if each of them leaves the loop, comes
closer to its end, or changes nothing because it was told to try again.
-/
theorem iterate {c : σ → I.Call} {body : (s : σ) → I.Res (c s) → Prog I (σ ⊕ β)} (μ : σ → Nat)
    (hwait : ∀ s r, blocked (c s) r → body s r = .ret (.inl s))
    (hbody : ∀ s r, ¬ blocked (c s) r → (∃ b, body s r = .ret (.inr b)) ∨
      ∃ s', body s r = .ret (.inl s') ∧ μ s' < μ s) (s : σ) :
    Ends blocked env (Prog.iterate c body s) := by
  have hdone : ∀ s i b, body s (env i (c s)) = .ret (.inr b) →
      Reaches env i (Prog.iterate c body s) (i + 1) (.ret b) := by
    intro s i b hb
    refine .step rfl ?_
    rw [hb]
    exact .refl
  have hnext : ∀ s s' i, body s (env i (c s)) = .ret (.inl s') →
      Reaches env i (Prog.iterate c body s) (i + 1) (Prog.iterate c body s') := by
    intro s s' i hs'
    refine .step rfl ?_
    rw [hs']
    exact .refl
  induction h : μ s using Nat.strongRecOn generalizing s with
  | ind d ih =>
  subst h
  have hworth : ∀ i, ¬ blocked (c s) (env i (c s)) →
      Returns env i (Prog.iterate c body s) ∨ Blocks blocked env i (Prog.iterate c body s) := by
    intro i hi
    rcases hbody s _ hi with ⟨b, hb⟩ | ⟨s', hs', hlt⟩
    · exact Or.inl (.of_reaches (hdone s i b hb) (Returns.ret _ b))
    · rcases ih _ hlt s' rfl (i + 1) with hret | hblk
      · exact Or.inl (.of_reaches (hnext s s' i hs') hret)
      · exact Or.inr (.of_reaches (hnext s s' i hs') hblk)
  intro i
  by_cases hb : ∀ n, i ≤ n → blocked (c s) (env n (c s))
  · exact Or.inr ⟨i, _, c s, _, .refl, rfl, hb⟩
  -- until the first answer that is worth something, nothing changes
  have hex : ∃ m, ¬ blocked (c s) (env (i + m) (c s)) := by
    refine Classical.byContradiction fun hno => hb fun n hn => ?_
    refine Classical.byContradiction fun hn' => hno ⟨n - i, ?_⟩
    rw [Nat.add_sub_cancel' hn]
    exact hn'
  clear hb
  obtain ⟨m, hm⟩ := hex
  induction m generalizing i with
  | zero => exact hworth i hm
  | succ m ihm =>
      by_cases hi : blocked (c s) (env i (c s))
      · have hr := hnext s s i (hwait s _ hi)
        rw [← Nat.add_assoc, Nat.add_right_comm] at hm
        rcases ihm (i + 1) hm with hret | hblk
        · exact Or.inl (.of_reaches hr hret)
        · exact Or.inr (.of_reaches hr hblk)
      · exact hworth i hi

end Ends

/-- `p` gives up waiting only when it has to, and waits for nothing else. -/
structure Waits (blocked : (c : I.Call) → I.Res c → Prop) (env : Answers I) (p : Prog I α) :
    Prop where
  ends : Ends blocked env p
  patient : Patient blocked p

namespace Waits

theorem ret (a : α) : Waits blocked env (.ret a) := ⟨Ends.ret a, trivial⟩

theorem bind {p : Prog I α} {f : α → Prog I β} (hp : Waits blocked env p)
    (hf : ∀ a, Waits blocked env (f a)) : Waits blocked env (p.bind f) :=
  ⟨hp.ends.bind fun a => (hf a).ends, hp.patient.bind fun a => (hf a).patient⟩

theorem perform {c : I.Call} (h : ∀ r, ¬ blocked c r) : Waits blocked env (Prog.perform c) :=
  ⟨Ends.perform c, Patient.perform h⟩

/-- **It returns exactly when it is not blocked for good.** -/
theorem returns_iff {p : Prog I α} (h : Waits blocked env p) (i : Nat) :
    Returns env i p ↔ ¬ Blocks blocked env i p :=
  ⟨fun hr hb => h.patient.not_returns hb hr, fun hb => (h.ends i).resolve_right hb⟩

end Waits

end Interact
