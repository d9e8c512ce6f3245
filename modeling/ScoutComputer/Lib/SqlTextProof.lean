import Mathlib.Data.List.TakeWhile
import ScoutComputer.Lib.SqlText

/-!
# Reading SQL text piece by piece

No token begins before a separator (a comma, a parenthesis or a semicolon) and ends
behind it, unless it is a literal or a comment that goes on. So a token that ends before a
separator does not depend on what comes after it (`scan_cut`, one lemma for each kind of
token), and by induction a statement that was put together from pieces is read piece by
piece (`reads_cut`): the second piece from the state in which the first one ends.

A spliced string literal reads as the spliced bytes exactly when they are `plainText`
(`Reads.spliced` and `reads_of_body`): escaping and doubling only add quotes and
backslashes, so a literal that decodes to as many other bytes as were spliced has ended at
the closing quote of the splice.
-/

namespace SqlText

@[simp] theorem rawText_nil : rawText [] = [] := rfl

@[simp] theorem rawText_cons (t : Lexeme) (ts : List Lexeme) :
    rawText (t :: ts) = t.2 ++ rawText ts := rfl

@[simp] theorem rawText_append (ts us : List Lexeme) :
    rawText (ts ++ us) = rawText ts ++ rawText us := List.flatMap_append

@[simp] theorem tokens_append (ts us : List Lexeme) :
    tokens (ts ++ us) = tokens ts ++ tokens us := by simp [tokens]

/-! ## Quoted text -/

/-- The text between two quotes, and its value. -/
inductive Body (q : UInt8) : List UInt8 → List UInt8 → Prop where
  | nil : Body q [] []
  | plain {c : UInt8} {u v : List UInt8} : c ≠ q → isEscape q c = false → Body q u v →
      Body q (c :: u) (c :: v)
  | escape {b c : UInt8} {u v : List UInt8} : isEscape q b → Body q u v →
      Body q (b :: c :: u) (unescape c ++ v)
  | double {u v : List UInt8} : Body q u v → Body q (q :: q :: u) (q :: v)

theorem isEscape_self {q : UInt8} (hq : q ≠ backslash) : isEscape q q = false := by
  simp [isEscape, hq]

theorem scanStr_of_body {q : UInt8} (hq : q ≠ backslash) {u v : List UInt8} (h : Body q u v)
    {rest : List UInt8} (hr : rest.head? ≠ some q) :
    scanStr q (u ++ q :: rest) = some (v, rest) := by
  have hqq := isEscape_self hq
  induction h with
  | nil =>
      cases rest with
      | nil => simp [scanStr]
      | cons d s =>
          have hd : d ≠ q := fun h => hr (by rw [h]; rfl)
          simp [scanStr, hqq, hd]
  | @plain c u v hc hb _ ih =>
      cases hu : u ++ q :: rest with
      | nil => simp at hu
      | cons d s =>
          show scanStr q (c :: (u ++ q :: rest)) = _
          rw [hu, scanStr, hb, if_neg Bool.false_ne_true, if_neg hc, ← hu, ih]
          rfl
  | @escape b c u v hb _ ih =>
      show scanStr q (b :: c :: (u ++ q :: rest)) = _
      rw [scanStr, if_pos hb, ih]
      rfl
  | @double u v _ ih =>
      show scanStr q (q :: q :: (u ++ q :: rest)) = _
      rw [scanStr, hqq, if_neg Bool.false_ne_true, if_pos rfl, if_pos rfl, ih]
      rfl

theorem body_of_scanStr {q : UInt8} {s v rest : List UInt8} (h : scanStr q s = some (v, rest)) :
    ∃ u, s = u ++ q :: rest ∧ Body q u v ∧ rest.head? ≠ some q := by
  fun_induction scanStr q s generalizing v rest with
  | case1 => exact absurd h (by simp)
  | case2 =>
      injection h with h
      injection h with h1 h2
      subst h1
      subst h2
      exact ⟨[], rfl, .nil, by simp⟩
  | case3 c hc => exact absurd h (by simp)
  | case4 c d s hb ih =>
      obtain ⟨⟨v', rest'⟩, hx, he⟩ := Option.map_eq_some_iff.mp h
      injection he with h1 h2
      subst h1
      subst h2
      obtain ⟨u, hu, hbody, hr⟩ := ih hx
      exact ⟨c :: d :: u, by rw [hu]; rfl, .escape hb hbody, hr⟩
  | case5 s hb ih =>
      obtain ⟨⟨v', rest'⟩, hx, he⟩ := Option.map_eq_some_iff.mp h
      injection he with h1 h2
      subst h1
      subst h2
      obtain ⟨u, hu, hbody, hr⟩ := ih hx
      exact ⟨q :: q :: u, by rw [hu]; rfl, .double hbody, hr⟩
  | case6 d s hd hb =>
      injection h with h
      injection h with h1 h2
      subst h1
      subst h2
      exact ⟨[], rfl, .nil, by simp [hd]⟩
  | case7 c d s hb hc ih =>
      obtain ⟨⟨v', rest'⟩, hx, he⟩ := Option.map_eq_some_iff.mp h
      injection he with h1 h2
      subst h1
      subst h2
      obtain ⟨u, hu, hbody, hr⟩ := ih hx
      exact ⟨c :: u, by rw [hu]; rfl, .plain hc (by simpa using hb) hbody, hr⟩

/-! ## Reading up to a separator -/

/-- Punctuation that ends every token before it and never belongs to a longer one. -/
def isSeparator (p : UInt8) : Bool := p = comma || p = 40 || p = 41 || p = 59

theorem isSeparator_cases {p : UInt8} (hp : isSeparator p) :
    p = comma ∨ p = 40 ∨ p = 41 ∨ p = 59 := by
  simpa [isSeparator, or_assoc] using hp

theorem takeWhile_cut {f : UInt8 → Bool} {p : UInt8} (hf : f p = false) (s X : List UInt8) :
    (s ++ p :: X).takeWhile f = s.takeWhile f := by
  induction s with
  | nil => simp [hf]
  | cons c s ih => simp only [List.cons_append, List.takeWhile_cons, ih]

theorem dropWhile_cut {f : UInt8 → Bool} {p : UInt8} (hf : f p = false) (s X : List UInt8) :
    (s ++ p :: X).dropWhile f = s.dropWhile f ++ p :: X := by
  induction s with
  | nil => simp [hf]
  | cons c s ih =>
      simp only [List.cons_append, List.dropWhile_cons, ih]
      split <;> rfl

section
variable {p : UInt8} (hp : isSeparator p)
include hp

theorem isWord_separator : isWord p = false := by
  rcases isSeparator_cases hp with rfl | rfl | rfl | rfl <;> rfl

theorem scan_separator (version : Nat) (b : Bool) (X : List UInt8) :
    scan version b (p :: X) = some (.punct p, X) := by
  rcases isSeparator_cases hp with rfl | rfl | rfl | rfl <;> cases b <;> rfl

theorem isDigit_separator : isDigit p = false := by
  rcases isSeparator_cases hp with rfl | rfl | rfl | rfl <;> rfl

theorem dashes_separator (s X Y : List UInt8) : dashes (s ++ p :: X) = dashes (s ++ p :: Y) := by
  have h45 : p ≠ 45 := by rcases isSeparator_cases hp with rfl | rfl | rfl | rfl <;> decide
  match s with
  | [] => cases X <;> cases Y <;> simp [dashes, h45]
  | [c] => by_cases hc : c = 45 <;> simp [dashes, hc]
  | c :: d :: s => by_cases hc : c = 45 <;> simp [dashes, hc]

end

theorem head?_cut (s : List UInt8) (p : UInt8) (X Y : List UInt8) :
    (s ++ p :: X).head? = (s ++ p :: Y).head? := by
  cases s <;> rfl

theorem scanStr_cut {q p : UInt8} (hq : q ≠ backslash) {s r v X : List UInt8}
    (h : scanStr q (s ++ p :: X) = some (v, r ++ p :: X)) (Y : List UInt8) :
    scanStr q (s ++ p :: Y) = some (v, r ++ p :: Y) := by
  obtain ⟨u, hu, hb, hr⟩ := body_of_scanStr h
  have hs' : s ++ p :: X = (u ++ q :: r) ++ p :: X := by rw [hu]; simp
  have hs := List.append_cancel_right hs'
  rw [hs, List.append_assoc, List.cons_append]
  exact scanStr_of_body hq hb (by rwa [head?_cut r p Y X])

theorem afterLine_length (s : List UInt8) : (afterLine s).length ≤ s.length :=
  (List.dropWhile_suffix _).length_le

theorem afterLine_cut {p : UInt8} {s r X : List UInt8} (h : afterLine (s ++ p :: X) = r ++ p :: X)
    (hp : p ≠ newline) (Y : List UInt8) : afterLine (s ++ p :: Y) = r ++ p :: Y := by
  induction s with
  | nil =>
      have hX : afterLine (p :: X) = afterLine X := by simp [afterLine, hp]
      have hlen := afterLine_length X
      rw [List.nil_append, hX] at h
      rw [h, List.length_append, List.length_cons] at hlen
      omega
  | cons c s ih =>
      by_cases hc : c = newline
      · have hX : ∀ Z, afterLine (c :: s ++ p :: Z) = c :: s ++ p :: Z := by simp [afterLine, hc]
        rw [hX] at h ⊢
        rw [List.append_cancel_right h]
      · have hX : ∀ Z, afterLine (c :: s ++ p :: Z) = afterLine (s ++ p :: Z) := by
          simp [afterLine, hc]
        rw [hX] at h ⊢
        exact ih h

theorem scanBlock_length {s r : List UInt8} (h : scanBlock s = some r) : r.length ≤ s.length := by
  fun_induction scanBlock s with
  | case1 => exact absurd h (by simp)
  | case2 c s _ =>
      cases h
      rw [List.length_tail, List.length_cons]
      omega
  | case3 c s _ ih =>
      have := ih h
      rw [List.length_cons]
      omega

theorem scanBlock_cut {p : UInt8} {s r X : List UInt8}
    (h : scanBlock (s ++ p :: X) = some (r ++ p :: X)) (h42 : p ≠ 42) (h47 : p ≠ 47)
    (Y : List UInt8) : scanBlock (s ++ p :: Y) = some (r ++ p :: Y) := by
  induction s with
  | nil =>
      rw [List.nil_append, scanBlock, if_neg (fun h => h42 h.1)] at h
      have hlen := scanBlock_length h
      rw [List.length_append, List.length_cons] at hlen
      omega
  | cons c s ih =>
      rw [List.cons_append, scanBlock, head?_cut s p X Y] at h
      rw [List.cons_append, scanBlock]
      by_cases hc : c = 42 ∧ (s ++ p :: Y).head? = some 47
      · rw [if_pos hc] at h ⊢
        cases s with
        | nil => exact absurd (Option.some.inj hc.2) h47
        | cons d s =>
            have h := Option.some.inj h
            rw [List.cons_append, List.tail_cons] at h ⊢
            rw [List.append_cancel_right h]
      · rw [if_neg hc] at h ⊢
        exact ih h

theorem scanUnread_length {inner : Bool} {s r : List UInt8} (h : scanUnread inner s = some r) :
    r.length ≤ s.length := by
  fun_induction scanUnread inner s with
  | case1 => exact absurd h (by simp)
  | case2 => exact absurd h (by simp)
  | case3 inner c d s _ ih =>
      have := ih h
      simp only [List.length_cons]
      omega
  | case4 c d s _ _ ih =>
      have := ih h
      simp only [List.length_cons]
      omega
  | case5 inner c d s _ _ =>
      cases h
      simp only [List.length_cons]
      omega
  | case6 inner c d s _ _ ih =>
      have := ih h
      simp only [List.length_cons] at this ⊢
      omega

theorem scanUnread_cons {p : UInt8} (h42 : p ≠ 42) (h47 : p ≠ 47) (inner : Bool)
    (X : List UInt8) : scanUnread inner (p :: X) = scanUnread inner X := by
  cases X with
  | nil => rfl
  | cons d X => rw [scanUnread, if_neg (fun h => h47 h.1), if_neg (fun h => h42 h.1)]

theorem scanUnread_cut {p : UInt8} (h42 : p ≠ 42) (h47 : p ≠ 47) {inner : Bool}
    {s r X : List UInt8} (h : scanUnread inner (s ++ p :: X) = some (r ++ p :: X))
    (Y : List UInt8) : scanUnread inner (s ++ p :: Y) = some (r ++ p :: Y) := by
  -- a comment that is still open at the separator does not end before it
  have hopen : ∀ inner, scanUnread inner (p :: X) ≠ some (r ++ p :: X) := by
    intro inner hX
    rw [scanUnread_cons h42 h47] at hX
    have hlen := scanUnread_length hX
    rw [List.length_append, List.length_cons] at hlen
    omega
  match s with
  | [] => exact absurd h (hopen inner)
  | [c] =>
      rw [List.singleton_append, scanUnread, if_neg (fun h => h42 h.2.1),
        if_neg (fun h => h47 h.2)] at h
      exact absurd h (hopen inner)
  | c :: d :: s =>
      rw [List.cons_append, List.cons_append, scanUnread] at h ⊢
      by_cases hin : c = 47 ∧ d = 42 ∧ inner = false
      · rw [if_pos hin] at h ⊢
        exact scanUnread_cut h42 h47 h Y
      rw [if_neg hin] at h ⊢
      by_cases hend : c = 42 ∧ d = 47
      · rw [if_pos hend] at h ⊢
        cases inner with
        | true => exact scanUnread_cut h42 h47 h Y
        | false => exact congrArg (fun t => some (t ++ p :: Y)) (List.append_cancel_right (Option.some.inj h))
      · rw [if_neg hend] at h ⊢
        exact scanUnread_cut (s := d :: s) h42 h47 h Y

/-- What `f` reads in front of a separator does not depend on what follows the separator. -/
def CutAt (p : UInt8) (f : List UInt8 → Option (Token × List UInt8)) : Prop :=
  ∀ {s r X : List UInt8} {tok : Token}, f (s ++ p :: X) = some (tok, r ++ p :: X) →
    ∀ Y, f (s ++ p :: Y) = some (tok, r ++ p :: Y)

theorem cutAt_rest (p : UInt8) (tok : Token) : CutAt p fun s => some (tok, s) := by
  intro s r X tok' h Y
  obtain ⟨h1, h2⟩ := Prod.mk.inj (Option.some.inj h)
  rw [List.append_cancel_right h2, h1]

theorem cutAt_map {p : UInt8} {f : List UInt8 → Option (List UInt8)} (tok : Token)
    (hf : ∀ {s r X}, f (s ++ p :: X) = some (r ++ p :: X) →
      ∀ Y, f (s ++ p :: Y) = some (r ++ p :: Y)) :
    CutAt p fun s => (f s).map fun x => (tok, x) := by
  intro s r X tok' h Y
  obtain ⟨x, hx, he⟩ := Option.map_eq_some_iff.mp h
  obtain ⟨h1, h2⟩ := Prod.mk.inj he
  show (f (s ++ p :: Y)).map _ = _
  rw [hf (r := r) (by rw [hx, ← h2]) Y, ← h1]
  rfl

theorem cutAt_scanQuoted {p q : UInt8} (hq : q ≠ backslash) (token : List UInt8 → Token) :
    CutAt p (scanQuoted q token) := by
  intro s r X tok h Y
  obtain ⟨x, hx, he⟩ := Option.map_eq_some_iff.mp h
  obtain ⟨h1, h2⟩ := Prod.mk.inj he
  rw [scanQuoted, scanStr_cut (v := x.1) (r := r) hq (by rw [hx, ← h2]) Y, ← h1]
  rfl

theorem versionDigits_length (s : List UInt8) : (versionDigits s).length ≤ s.length := by
  have htake := (s.takeWhile_prefix isDigit).length_le
  unfold versionDigits
  split
  · rw [List.length_take]
    omega
  · exact Nat.zero_le _

section
variable {p : UInt8} (hp : isSeparator p)
include hp

theorem separator_ne : p ≠ newline ∧ p ≠ 42 ∧ p ≠ 47 ∧ p ≠ 46 ∧ p ≠ 33 := by
  rcases isSeparator_cases hp with rfl | rfl | rfl | rfl <;> decide

theorem cutAt_afterLine : CutAt p fun s => some (.comment, afterLine s) := by
  intro s r X tok h Y
  obtain ⟨h1, h2⟩ := Prod.mk.inj (Option.some.inj h)
  show some (Token.comment, afterLine (s ++ p :: Y)) = _
  rw [afterLine_cut h2 (separator_ne hp).1 Y, h1]

/-! Digits, points and exponents end at a separator, whatever follows it. -/

theorem afterSign_cut (s X : List UInt8) : afterSign (s ++ p :: X) = afterSign s ++ p :: X := by
  cases s with
  | nil => rcases isSeparator_cases hp with rfl | rfl | rfl | rfl <;> rfl
  | cons c s =>
      rw [List.cons_append, afterSign, afterSign]
      split <;> rfl

theorem head?_isDigit_cut (s X : List UInt8) :
    (s ++ p :: X).head?.any isDigit = s.head?.any isDigit := by
  cases s with
  | nil => exact isDigit_separator hp
  | cons c s => rfl

theorem afterExponent_cut (s X : List UInt8) :
    afterExponent (s ++ p :: X) = (afterExponent s).map (· ++ p :: X) := by
  cases s with
  | nil => rcases isSeparator_cases hp with rfl | rfl | rfl | rfl <;> rfl
  | cons c s =>
      rw [List.cons_append, afterExponent, afterExponent, afterSign_cut hp, head?_isDigit_cut hp,
        dropWhile_cut (isDigit_separator hp)]
      split <;> rfl

theorem afterPoint_cut (s X : List UInt8) : afterPoint (s ++ p :: X) = afterPoint s ++ p :: X := by
  unfold afterPoint
  rw [dropWhile_cut (isDigit_separator hp), afterExponent_cut hp]
  cases afterExponent (s.dropWhile isDigit) <;> rfl

theorem afterNumber_cut (s X : List UInt8) :
    afterNumber (s ++ p :: X) = (afterNumber s).map (· ++ p :: X) := by
  cases s with
  | nil =>
      show afterNumber (p :: X) = none
      rw [afterNumber, if_neg (separator_ne hp).2.2.2.1]
      exact afterExponent_cut hp [] X
  | cons c s =>
      rw [List.cons_append, afterNumber, afterNumber]
      by_cases hc : c = 46
      · rw [if_pos hc, if_pos hc, afterPoint_cut hp]
        rfl
      · rw [if_neg hc, if_neg hc]
        exact afterExponent_cut hp (c :: s) X

theorem scanWord_cut (c : UInt8) (s X : List UInt8) :
    scanWord c (s ++ p :: X) = ((scanWord c s).1, (scanWord c s).2 ++ p :: X) := by
  unfold scanWord
  rw [dropWhile_cut (isDigit_separator hp), dropWhile_cut (isWord_separator hp),
    takeWhile_cut (isWord_separator hp), afterNumber_cut hp]
  by_cases hc : isDigit c
  · rw [if_pos hc, if_pos hc]
    cases afterNumber (s.dropWhile isDigit) with
    | none => rfl
    | some rest =>
        simp only [Option.map_some, List.length_append, Nat.add_sub_add_right]
        rw [List.take_append_of_le_length (Nat.sub_le ..)]
  · rw [if_neg hc, if_neg hc]

theorem cutAt_scanWord (c : UInt8) : CutAt p fun s => some (scanWord c s) := by
  intro s r X tok h Y
  have h := Option.some.inj h
  rw [scanWord_cut hp] at h
  obtain ⟨h1, h2⟩ := Prod.mk.inj h
  show some (scanWord c (s ++ p :: Y)) = _
  rw [scanWord_cut hp, h1, List.append_cancel_right h2]

theorem versionDigits_cut (s X : List UInt8) :
    versionDigits (s ++ p :: X) = versionDigits s := by
  unfold versionDigits
  rw [takeWhile_cut (isDigit_separator hp)]

theorem cutAt_scanComment (version : Nat) : CutAt p (scanComment version) := by
  obtain ⟨-, h42, h47, -, h33⟩ := separator_ne hp
  have hplain : CutAt p fun s => (scanBlock s).map fun x => (.comment, x) :=
    cutAt_map .comment fun h Y => scanBlock_cut h h42 h47 Y
  intro s r X tok h Y
  unfold scanComment at h ⊢
  cases s with
  | nil =>
      have hp33 : ∀ Z : List UInt8, ([] ++ p :: Z).head? ≠ some 33 := by
        intro Z hZ
        exact h33 (Option.some.inj hZ)
      rw [if_neg (hp33 X)] at h
      rw [if_neg (hp33 Y)]
      exact hplain h Y
  | cons c s =>
      rw [List.cons_append, List.head?_cons, List.tail_cons, versionDigits_cut hp] at h ⊢
      by_cases hc : some c = some (33 : UInt8)
      · rw [if_pos hc] at h ⊢
        by_cases hrun : digitsValue (versionDigits s) ≤ version
        · rw [if_pos hrun, List.drop_append_of_le_length (versionDigits_length s)] at h ⊢
          exact cutAt_rest p .opening h Y
        · rw [if_neg hrun] at h ⊢
          exact cutAt_map .comment (fun h Y => scanUnread_cut h42 h47 h Y) h Y
      · rw [if_neg hc] at h ⊢
        exact hplain (s := c :: s) h Y

/-- A token that ends before a separator does not depend on what follows the separator. -/
theorem scan_cut (version : Nat) (b : Bool) : CutAt p (scan version b) := by
  intro s r X tok h Y
  obtain ⟨-, h42, h47, -⟩ := separator_ne hp
  cases s with
  | nil =>
      rw [List.nil_append, scan_separator hp] at h
      -- the separator itself would have been the token
      have hlen : X.length = (r ++ p :: X).length := by
        rw [← (Prod.mk.inj (Option.some.inj h)).2]
      rw [List.length_append, List.length_cons] at hlen
      omega
  | cons c s =>
      rw [List.cons_append, scan] at h ⊢
      by_cases hsp : isSpace c
      · rw [if_pos hsp] at h ⊢
        exact cutAt_rest p .space h Y
      rw [if_neg hsp] at h ⊢
      by_cases hq : c = quote ∨ c = dquote
      · rw [if_pos hq] at h ⊢
        exact cutAt_scanQuoted (by rcases hq with rfl | rfl <;> decide) .str h Y
      rw [if_neg hq] at h ⊢
      by_cases hb : c = backtick
      · rw [if_pos hb] at h ⊢
        exact cutAt_scanQuoted (by rw [hb]; decide) .name h Y
      rw [if_neg hb] at h ⊢
      by_cases hw : isWord c
      · rw [if_pos hw] at h ⊢
        exact cutAt_scanWord hp c h Y
      rw [if_neg hw] at h ⊢
      by_cases hh : c = 35
      · rw [if_pos hh] at h ⊢
        exact cutAt_afterLine hp h Y
      rw [if_neg hh, dashes_separator hp s X Y] at h
      rw [if_neg hh]
      by_cases hd : c = 45 ∧ dashes (s ++ p :: Y)
      · rw [if_pos hd] at h ⊢
        exact cutAt_afterLine hp h Y
      rw [if_neg hd, head?_cut s p X Y] at h
      rw [if_neg hd]
      -- a separator neither opens a comment nor closes one
      by_cases hs : c = 47 ∧ (s ++ p :: Y).head? = some 42
      · rw [if_pos hs] at h ⊢
        cases s with
        | nil => exact absurd (Option.some.inj hs.2) h42
        | cons d s => exact cutAt_scanComment hp version h Y
      rw [if_neg hs] at h ⊢
      by_cases he : b ∧ c = 42 ∧ (s ++ p :: Y).head? = some 47
      · rw [if_pos he] at h ⊢
        cases s with
        | nil => exact absurd (Option.some.inj he.2.2) h47
        | cons d s => exact cutAt_rest p .closing h Y
      · rw [if_neg he] at h ⊢
        exact cutAt_rest p (.punct c) h Y

end

/-! ## Reading a list of tokens -/

section
variable {version : Nat} {b c : Bool}

theorem reads_nil {s : List UInt8} : Reads version b s [] c ↔ s = [] ∧ b = c := by
  constructor
  · intro h
    cases h
    exact ⟨rfl, rfl⟩
  · rintro ⟨rfl, rfl⟩
    exact .nil

theorem reads_cons {s : List UInt8} {t : Lexeme} {ts : List Lexeme} :
    Reads version b s (t :: ts) c ↔ ∃ rest, s = t.2 ++ rest ∧
      scan version b s = some (t.1, rest) ∧ Reads version (t.1.inside b) rest ts c := by
  constructor
  · intro h
    cases h with
    | cons hs hr => exact ⟨_, rfl, hs, hr⟩
  · rintro ⟨rest, hs, hscan, hr⟩
    subst hs
    exact .cons hscan hr

/-- A text is what its tokens were read from. -/
theorem Reads.rawText_eq {s : List UInt8} {ts : List Lexeme} (h : Reads version b s ts c) :
    rawText ts = s := by
  induction h with
  | nil => rfl
  | cons _ _ ih => rw [rawText_cons, ih]

/-- A text has one reading, and it ends in one state. -/
theorem Reads.unique {s : List UInt8} {ts us : List Lexeme} {c' : Bool}
    (h : Reads version b s ts c) (h' : Reads version b s us c') : ts = us ∧ c = c' := by
  induction ts generalizing b s us with
  | nil =>
      obtain ⟨rfl, rfl⟩ := reads_nil.mp h
      cases us with
      | nil => exact ⟨rfl, (reads_nil.mp h').2⟩
      | cons u us =>
          obtain ⟨rest, _, hscan, _⟩ := reads_cons.mp h'
          exact absurd hscan (by simp [scan])
  | cons t ts ih =>
      obtain ⟨rest, hs, hscan, hr⟩ := reads_cons.mp h
      cases us with
      | nil =>
          obtain ⟨rfl, -⟩ := reads_nil.mp h'
          exact absurd hscan (by simp [scan])
      | cons u us =>
          obtain ⟨rest', hs', hscan', hr'⟩ := reads_cons.mp h'
          rw [hscan] at hscan'
          obtain ⟨h1, h2⟩ := Prod.mk.inj (Option.some.inj hscan')
          subst h2
          rw [← h1] at hr'
          obtain ⟨hts, hc⟩ := ih hr hr'
          rw [hts, Prod.ext h1 (List.append_cancel_right (hs.symm.trans hs'))]
          exact ⟨rfl, hc⟩

/-- The lexeme of a punctuation character. -/
def sep (p : UInt8) : Lexeme := (.punct p, [p])

theorem reads_separator {p : UInt8} (hp : isSeparator p) {X : List UInt8} {ts : List Lexeme} :
    Reads version b (p :: X) (sep p :: ts) c ↔ Reads version b X ts c := by
  rw [reads_cons]
  constructor
  · rintro ⟨rest, hs, _, hr⟩
    rw [(List.cons.inj hs).2]
    exact hr
  · intro h
    exact ⟨X, rfl, scan_separator hp version b X, h⟩

/--
**A text is read piece by piece**: up to a separator, and after it from the state in which
the first piece ends.
-/
theorem reads_cut {p : UInt8} (hp : isSeparator p) {A B : List Lexeme} {X : List UInt8} :
    Reads version b (rawText A ++ p :: X) (A ++ sep p :: B) c ↔
      ∃ m, Reads version b (rawText A ++ [p]) (A ++ [sep p]) m ∧ Reads version m X B c := by
  induction A generalizing b with
  | nil =>
      simp only [rawText_nil, List.nil_append, reads_separator hp, reads_nil, true_and]
      constructor
      · intro h
        exact ⟨b, rfl, h⟩
      · rintro ⟨m, rfl, h⟩
        exact h
  | cons t A ih =>
      simp only [rawText_cons, List.append_assoc, List.cons_append, reads_cons]
      constructor
      · rintro ⟨rest, hs, hscan, hr⟩
        have hrest := (List.append_cancel_left hs).symm
        subst hrest
        obtain ⟨m, hA, hB⟩ := ih.mp hr
        rw [← List.append_assoc] at hscan
        refine ⟨m, ⟨_, rfl, ?_, hA⟩, hB⟩
        rw [← List.append_assoc]
        exact scan_cut hp version b hscan []
      · rintro ⟨m, ⟨rest, hs, hscan, hr⟩, hB⟩
        have hrest := (List.append_cancel_left hs).symm
        subst hrest
        rw [← List.append_assoc] at hscan
        refine ⟨_, rfl, ?_, ih.mpr ⟨m, hr, hB⟩⟩
        rw [← List.append_assoc]
        exact scan_cut hp version b hscan X

/-- Tokens up to a separator are read from a piece of their own. -/
theorem Reads.cut {p : UInt8} (hp : isSeparator p) {s : List UInt8} {A B : List Lexeme}
    (h : Reads version b s (A ++ sep p :: B) c) :
    ∃ X m, s = rawText A ++ p :: X ∧ Reads version b (rawText A ++ [p]) (A ++ [sep p]) m ∧
      Reads version m X B c := by
  have hs : s = rawText A ++ p :: rawText B := by
    rw [← h.rawText_eq, rawText_append]
    rfl
  rw [hs] at h
  obtain ⟨m, hA, hB⟩ := (reads_cut hp).mp h
  exact ⟨rawText B, m, hs, hA, hB⟩

theorem Reads.after {p : UInt8} (hp : isSeparator p) {A B : List Lexeme} {X : List UInt8}
    {m : Bool} (hA : Reads version b (rawText A ++ [p]) (A ++ [sep p]) m)
    (hB : Reads version m X B c) : Reads version b (rawText A ++ p :: X) (A ++ sep p :: B) c :=
  (reads_cut hp).mpr ⟨m, hA, hB⟩

/-- A text without a slash opens no comment, and every server reads it alike. -/
theorem Reads.of_noSlash {s : List UInt8} {ts : List Lexeme} (h : Reads 0 b s ts c)
    (hs : 47 ∉ s) (version : Nat) : Reads version b s ts c := by
  induction h with
  | nil => exact .nil
  | @cons b c tok raw rest ts hscan _ ih =>
      refine .cons ?_ (ih fun h => hs (List.mem_append_right raw h))
      cases hX : raw ++ rest with
      | nil =>
          rw [hX] at hscan
          exact absurd hscan (by simp [scan])
      | cons d X =>
          have hd : d ≠ 47 := by
            intro h
            exact hs (by rw [hX, h]; exact List.mem_cons_self)
          rw [hX] at hscan
          rw [← hscan]
          simp only [scan, hd, false_and, if_false]

end

/-! ## String literals -/

/-- Bytes that stand for themselves between single quotes. -/
def plainText : List UInt8 → Bool
  | [] => true
  | [c] => c != quote && c != backslash
  | c :: d :: s =>
      if c = backslash then (d = 37 || d = 95) && plainText s
      else c != quote && plainText (d :: s)

/-- How many bytes of a text neither quote nor escape. -/
def ordinary (q : UInt8) (s : List UInt8) : Nat := s.countP fun c => c != q && c != backslash

/-- Only `\\%` and `\\_` stand for two bytes, themselves. -/
theorem unescape_cases (c : UInt8) :
    (c = 37 ∨ c = 95) ∧ unescape c = [backslash, c] ∨
      ∃ x, unescape c = [x] ∧ ordinary quote [x] = ordinary quote [c] := by
  unfold unescape
  by_cases h : c = 37 ∨ c = 95
  · rcases h with rfl | rfl
    · exact Or.inl ⟨Or.inl rfl, rfl⟩
    · exact Or.inl ⟨Or.inr rfl, rfl⟩
  · right
    rw [if_neg h]
    repeat' split
    all_goals first | subst c; exact ⟨_, rfl, rfl⟩ | exact ⟨_, rfl, rfl⟩

theorem Body.length_le {q : UInt8} {u v : List UInt8} (h : Body q u v) : v.length ≤ u.length := by
  induction h with
  | nil => exact Nat.le_refl 0
  | plain _ _ _ ih => simp only [List.length_cons]; omega
  | @escape b c u v _ _ ih =>
      have hc : (unescape c).length ≤ 2 := by
        rcases unescape_cases c with ⟨_, hc⟩ | ⟨x, hc, _⟩
        · rw [hc]; exact Nat.le_refl 2
        · rw [hc]; exact Nat.le_succ 1
      simp only [List.length_append, List.length_cons]
      omega
  | double _ ih => simp only [List.length_cons]; omega

theorem ordinary_append (q : UInt8) (s t : List UInt8) :
    ordinary q (s ++ t) = ordinary q s + ordinary q t := List.countP_append

theorem ordinary_cons (q c : UInt8) (s : List UInt8) :
    ordinary q (c :: s) = ordinary q [c] + ordinary q s := ordinary_append q [c] s

/-- Escaping and doubling only add quotes and backslashes. -/
theorem Body.ordinary_eq {u v : List UInt8} (h : Body quote u v) :
    ordinary quote v = ordinary quote u := by
  have hq : ordinary quote [quote] = 0 := rfl
  have hback : ordinary quote [backslash] = 0 := rfl
  induction h with
  | nil => rfl
  | @plain c u v _ _ _ ih => rw [ordinary_cons, ih, ← ordinary_cons]
  | @escape b c u v hb _ ih =>
      have hb : b = backslash := by
        simp only [isEscape, Bool.and_eq_true, decide_eq_true_eq] at hb
        exact hb.1
      have hc : ordinary quote (unescape c) = ordinary quote [c] := by
        rcases unescape_cases c with ⟨_, hc⟩ | ⟨x, hc, hx⟩
        · rw [hc, ordinary_cons, hback, Nat.zero_add]
        · rw [hc, hx]
      rw [ordinary_append, hc, ih, hb, ordinary_cons quote backslash, ordinary_cons quote c u,
        hback, Nat.zero_add]
  | @double u v _ ih =>
      rw [ordinary_cons, ih, ordinary_cons quote quote (quote :: u), ordinary_cons quote quote u]
      omega

/--
A literal that was spliced between quotes and decodes to what was spliced ends at the
closing quote of the splice, also when the text is cut off somewhere after it.
-/
theorem Body.eq_of_splice {u v X rest : List UInt8} {p : UInt8} (h : Body quote u v)
    (hp : ordinary quote [p] = 1) (hs : u ++ quote :: rest <+: v ++ quote :: p :: X) : u = v := by
  have hlen := h.length_le
  have hord := h.ordinary_eq
  -- the literal reaches at least to the closing quote
  obtain ⟨w, hw⟩ : ∃ w, u = v ++ w := by
    have hu : u <+: v ++ quote :: p :: X := (List.prefix_append _ _).trans hs
    obtain ⟨w, hw⟩ := List.prefix_of_prefix_length_le (List.prefix_append _ _) hu hlen
    exact ⟨w, hw.symm⟩
  subst hw
  rw [List.append_assoc, List.prefix_append_right_inj] at hs
  rw [ordinary_append] at hord
  obtain ⟨t, ht⟩ := hs
  match w with
  | [] => rw [List.append_nil]
  | [c] =>
      -- the quote after the splice would have to close the literal
      have hpq : quote = p := (List.cons.inj (List.cons.inj ht).2).1
      rw [← hpq] at hp
      exact absurd hp (by decide)
  | c :: d :: w =>
      have hd : d = p := (List.cons.inj (List.cons.inj ht).2).1
      rw [hd, ordinary_cons, ordinary_cons quote p, hp] at hord
      omega

theorem plainText_cons {c : UInt8} {s : List UInt8} (hq : c ≠ quote) (hb : c ≠ backslash) :
    plainText (c :: s) = plainText s := by
  cases s with
  | nil => simp [plainText, hq, hb]
  | cons d s => simp [plainText, hq, hb]

theorem plainText_of_body {u v : List UInt8} (h : Body quote u v) (huv : u = v) :
    plainText u := by
  induction h with
  | nil => rfl
  | @plain c u v hc hb _ ih =>
      have hc' : c ≠ backslash := by
        intro h
        rw [h] at hb
        exact absurd hb (by decide)
      rw [plainText_cons hc hc']
      exact ih (List.cons.inj huv).2
  | @escape b c u v hb hbody ih =>
      have hlen := hbody.length_le
      have hb : b = backslash := by
        simp only [isEscape, Bool.and_eq_true, decide_eq_true_eq] at hb
        exact hb.1
      rcases unescape_cases c with ⟨hc, hu⟩ | ⟨x, hu, _⟩
      · rw [hu] at huv
        have huv' := (List.cons.inj (List.cons.inj huv).2).2
        rw [plainText, if_pos hb, ih huv', Bool.and_true]
        rcases hc with rfl | rfl <;> rfl
      · rw [hu] at huv
        have huv' : c :: u = v := (List.cons.inj huv).2
        rw [← huv', List.length_cons] at hlen
        omega
  | @double u v hbody _ =>
      have hlen := hbody.length_le
      rw [← (List.cons.inj huv).2, List.length_cons] at hlen
      omega

theorem body_of_plainText {v : List UInt8} (h : plainText v) : Body quote v v := by
  fun_induction plainText v with
  | case1 => exact .nil
  | case2 c =>
      simp only [Bool.and_eq_true, bne_iff_ne, ne_eq] at h
      exact .plain h.1 (by simp [isEscape, h.2]) .nil
  | case3 d s ih =>
      simp only [Bool.and_eq_true, Bool.or_eq_true, decide_eq_true_eq] at h
      have he := Body.escape (c := d) (b := backslash) (by decide) (ih h.2)
      rcases h.1 with rfl | rfl
      · exact he
      · exact he
  | case4 c d s hc ih =>
      simp only [Bool.and_eq_true, bne_iff_ne, ne_eq] at h
      exact .plain h.1 (by simp [isEscape, hc]) (ih h.2)

section
variable {version : Nat} {b c : Bool}

theorem scan_quote (s : List UInt8) :
    scan version b (quote :: s) = (scanStr quote s).map fun x => (.str x.1, x.2) := rfl

/-- Text between quotes reads as the literal it encodes. -/
theorem reads_of_body {u v X : List UInt8} {p : UInt8} {ts : List Lexeme} (h : Body quote u v)
    (hp : p ≠ quote) (hX : Reads version b (p :: X) ts c) :
    Reads version b (quote :: u ++ quote :: p :: X) ((.str v, quote :: u ++ [quote]) :: ts) c := by
  rw [reads_cons]
  refine ⟨p :: X, by simp, ?_, hX⟩
  rw [List.cons_append, scan_quote, scanStr_of_body (by decide) h (by simpa using hp)]
  rfl

/--
**A spliced literal** that reads as the spliced bytes has only plain ones, and ends where
the splice ends.
-/
theorem Reads.spliced {v X raw s : List UInt8} {p : UInt8} {ts : List Lexeme}
    (h : Reads version b s ((.str v, raw) :: ts) c) (hp : ordinary quote [p] = 1)
    (hs : s <+: quote :: v ++ quote :: p :: X) :
    plainText v ∧ ∃ rest, s = quote :: v ++ quote :: rest ∧ Reads version b rest ts c := by
  obtain ⟨rest, _, hscan, hr⟩ := reads_cons.mp h
  cases s with
  | nil => exact absurd hscan (by simp [scan])
  | cons d s =>
      have hd : d = quote := by
        obtain ⟨t, ht⟩ := hs
        exact (List.cons.inj ht).1
      subst hd
      rw [List.cons_append, List.cons_prefix_cons] at hs
      rw [scan_quote] at hscan
      obtain ⟨x, hx, he⟩ := Option.map_eq_some_iff.mp hscan
      obtain ⟨h1, h2⟩ := Prod.mk.inj he
      obtain ⟨u, hu, hbody, _⟩ := body_of_scanStr hx
      rw [Token.str.inj h1] at hbody
      rw [hu] at hs
      have huv := hbody.eq_of_splice hp hs.2
      subst huv
      refine ⟨plainText_of_body hbody rfl, rest, ?_, hr⟩
      rw [hu, h2]
      rfl

theorem ordinary_separator {p : UInt8} (hp : isSeparator p) : ordinary quote [p] = 1 := by
  rcases isSeparator_cases hp with rfl | rfl | rfl | rfl <;> rfl

/-- A spliced literal and the separator of the template after it. -/
theorem Reads.spliced_separator {v X raw s : List UInt8} {p : UInt8} {ts : List Lexeme}
    (h : Reads version b s ((.str v, raw) :: sep p :: ts) c) (hp : isSeparator p)
    (hs : s <+: quote :: v ++ quote :: p :: X) :
    plainText v ∧ ∃ rest, s = quote :: v ++ quote :: p :: rest ∧ rest <+: X ∧
      Reads version b rest ts c := by
  obtain ⟨hv, rest, hrest, hlex⟩ := h.spliced (ordinary_separator hp) hs
  obtain ⟨X', hX', -, hlex'⟩ := reads_cons.mp hlex
  have hX'' : rest = p :: X' := hX'
  subst hX''
  refine ⟨hv, X', hrest, ?_, hlex'⟩
  rw [hrest, List.prefix_append_right_inj, List.cons_prefix_cons, List.cons_prefix_cons] at hs
  exact hs.2.2

/-! ## Words and punctuation -/

theorem isDigit_not {d : UInt8} (h : isDigit d) :
    isWord d ∧ isSpace d = false ∧ d ≠ quote ∧ d ≠ dquote ∧ d ≠ backtick := by
  simp [isDigit, isWord, isSpace, quote, dquote, backtick] at h ⊢
  grind

/-- An integer is read up to the next separator. -/
theorem reads_digits {w X : List UInt8} {p : UInt8} {ts : List Lexeme} (hp : isSeparator p)
    (hw : w ≠ []) (hall : ∀ d ∈ w, isDigit d) (hX : Reads version b (p :: X) ts c) :
    Reads version b (w ++ p :: X) ((.word w, w) :: ts) c := by
  rw [reads_cons]
  refine ⟨p :: X, rfl, ?_, hX⟩
  cases w with
  | nil => exact absurd rfl hw
  | cons d w =>
      obtain ⟨hword, hs, hq, hdq, hb⟩ := isDigit_not (hall d List.mem_cons_self)
      have hrest : ∀ e ∈ w, isDigit e := fun e h => hall e (List.mem_cons_of_mem d h)
      have hdrop : w.dropWhile isDigit = [] := List.dropWhile_eq_nil_iff.mpr hrest
      have hwords : ∀ e ∈ w, isWord e := fun e h => (isDigit_not (hrest e h)).1
      -- neither a point nor an exponent follows the digits
      have hscan : scanWord d w = (.word (d :: w), []) := by
        have hnone : (if isDigit d then afterNumber [] else none) = none := ite_self none
        unfold scanWord
        rw [hdrop, hnone, List.takeWhile_eq_self_iff.mpr hwords,
          List.dropWhile_eq_nil_iff.mpr hwords]
      rw [List.cons_append, scan, hs, if_neg Bool.false_ne_true, if_neg (by simp [hq, hdq]),
        if_neg hb, if_pos hword, scanWord_cut hp, hscan]
      rfl

/-- A minus sign before a digit is not the start of a comment. -/
theorem reads_minus {d : UInt8} {X : List UInt8} {ts : List Lexeme} (hd : d ≠ 45)
    (hX : Reads version b (d :: X) ts c) : Reads version b (45 :: d :: X) (sep 45 :: ts) c := by
  rw [reads_cons]
  refine ⟨d :: X, rfl, ?_, hX⟩
  have hdash : dashes (d :: X) = false := by
    cases X <;> simp [dashes, hd]
  rw [scan, hdash]
  cases b <;> rfl

end

instance decidableReads (version : Nat) : (b : Bool) → (s : List UInt8) → (ts : List Lexeme) →
    (c : Bool) → Decidable (Reads version b s ts c)
  | b, s, [], c => decidable_of_iff (s = [] ∧ b = c) reads_nil.symm
  | b, s, t :: ts, c =>
      have := decidableReads version (t.1.inside b) (s.drop t.2.length) ts c
      decidable_of_iff (s = t.2 ++ s.drop t.2.length ∧
          scan version b s = some (t.1, s.drop t.2.length) ∧
          Reads version (t.1.inside b) (s.drop t.2.length) ts c) (by
        rw [reads_cons]
        constructor
        · intro h
          exact ⟨_, h⟩
        · rintro ⟨rest, hs, h⟩
          have hrest : s.drop t.2.length = rest := by rw [hs, List.drop_left]
          rw [hrest]
          exact ⟨hs, h⟩)

end SqlText
