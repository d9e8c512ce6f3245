import ScoutComputer.Data.Decimal
import ScoutComputer.Data.InsertMatchProof

/-!
# What the server reads when a team is inserted

Placeholder expansion escapes every argument once and never looks at what it has
written again, so a team name stays one string literal. The length of an argument is
kept in an `int`, and the buffer for its escaped form is sized in `int` arithmetic:
from `2 ^ 30` bytes on the buffer is NULL, too small, or filled from a part of the name.
-/

namespace ScoutComputer

open SqlText

/-! ## Escaping -/

/-- The bytes that are escaped, and what follows the backslash. -/
theorem escapeSlash_cases (c : Byte) :
    (∃ x, escapeSlash c = [backslash, x] ∧ unescape x = [c] ∧ x ≠ 0) ∨
      escapeSlash c = [c] ∧ c ≠ 0 ∧ c ≠ quote ∧ c ≠ backslash := by
  unfold escapeSlash
  by_cases h0 : c = 0
  · exact Or.inl ⟨48, by rw [if_pos h0], by rw [h0]; decide, by decide⟩
  rw [if_neg h0]
  by_cases h10 : c = 10
  · exact Or.inl ⟨110, by rw [if_pos h10], by rw [h10]; decide, by decide⟩
  rw [if_neg h10]
  by_cases h13 : c = 13
  · exact Or.inl ⟨114, by rw [if_pos h13], by rw [h13]; decide, by decide⟩
  rw [if_neg h13]
  by_cases hs : c = 92 ∨ c = 39 ∨ c = 34
  · refine Or.inl ⟨c, by rw [if_pos hs], ?_, h0⟩
    rcases hs with rfl | rfl | rfl <;> decide
  rw [if_neg hs]
  by_cases h26 : c = 26
  · exact Or.inl ⟨90, by rw [if_pos h26], by rw [h26]; decide, by decide⟩
  rw [if_neg h26]
  exact Or.inr ⟨rfl, h0, fun h => hs (Or.inr (Or.inl h)), fun h => hs (Or.inl h)⟩

/-- **Escaped text between quotes reads as the text.** -/
theorem body_escaped (s : List Byte) : Body quote (s.flatMap escapeSlash) s := by
  induction s with
  | nil => exact .nil
  | cons c s ih =>
      rw [List.flatMap_cons]
      rcases escapeSlash_cases c with ⟨x, hc, hx, _⟩ | ⟨hc, _, hq, hb⟩
      · rw [hc]
        have he := Body.escape (b := backslash) (c := x) (by decide) ih
        rw [hx] at he
        exact he
      · rw [hc]
        exact .plain hq (by simp [isEscape, hb]) ih

theorem zero_notMem_escaped (s : List Byte) : 0 ∉ s.flatMap escapeSlash := by
  intro h
  obtain ⟨c, _, hc⟩ := List.mem_flatMap.mp h
  rcases escapeSlash_cases c with ⟨x, he, _, hx⟩ | ⟨he, h0, _⟩
  · rw [he] at hc
    simp only [List.mem_cons, List.not_mem_nil, or_false] at hc
    rcases hc with hc | hc
    · exact absurd hc (by decide)
    · exact hx hc.symm
  · rw [he] at hc
    exact h0 (List.mem_singleton.mp hc).symm

theorem escaped_length (s : List Byte) :
    s.length ≤ (s.flatMap escapeSlash).length ∧ (s.flatMap escapeSlash).length ≤ 2 * s.length := by
  induction s with
  | nil => exact ⟨Nat.le_refl 0, Nat.le_refl 0⟩
  | cons c s ih =>
      rw [List.flatMap_cons, List.length_append, List.length_cons]
      rcases escapeSlash_cases c with ⟨x, hc, _, _⟩ | ⟨hc, _⟩
      · rw [hc]
        simp only [List.length_cons, List.length_nil]
        omega
      · rw [hc]
        simp only [List.length_cons, List.length_nil]
        omega

/-- An `int` keeps the low 32 bits. -/
theorem toInt32_spec (n : Int) :
    -2147483648 ≤ toInt32 n ∧ toInt32 n < 2147483648 ∧
      toInt32 n % 4294967296 = n % 4294967296 := by
  unfold toInt32 Int.bmod
  dsimp only
  split <;> omega

/-- What an argument adds, in terms of its length. -/
theorem escapedArg_def (s : List Byte) :
    escapedArg s =
      let n := toULong (toInt32 s.length)
      let size := toSizeT (toInt32 (toInt32 s.length * 2 + 1))
      if 2 ^ 63 ≤ size ∨ size < ((s.take n).flatMap escapeSlash).length + 1 then none
      else some ((s.take n).flatMap escapeSlash) := by
  unfold escapedArg mysqlRealEscapeString
  simp only [cStr_eq_self (zero_notMem_escaped _)]

/-- A short argument is escaped as a whole. -/
theorem escapedArg_eq {s : List Byte} (hs : s.length < 2 ^ 30) :
    escapedArg s = some (s.flatMap escapeSlash) := by
  have hlen : toInt32 s.length = s.length := Int.bmod_eq_of_le (by omega) (by omega)
  have hsize : toInt32 ((s.length : Int) * 2 + 1) = s.length * 2 + 1 :=
    Int.bmod_eq_of_le (by omega) (by omega)
  have hn : toULong (s.length : Int) = s.length := by
    unfold toULong
    omega
  have hsz : toSizeT ((s.length : Int) * 2 + 1) = s.length * 2 + 1 := by
    unfold toSizeT
    omega
  have hesc := escaped_length s
  rw [escapedArg_def]
  simp only [hlen, hsize, hn, hsz, List.take_length]
  rw [if_neg (by omega)]

/-- What a long argument adds is a part of it, if it adds anything. -/
theorem escapedArg_long {s t : List Byte} (hs : 2 ^ 30 ≤ s.length) (h : escapedArg s = some t) :
    ∃ n, n < s.length ∧ t = (s.take n).flatMap escapeSlash := by
  rw [escapedArg_def] at h
  have hesc := (escaped_length (s.take (toULong (toInt32 s.length)))).1
  rw [List.length_take] at hesc
  dsimp only at h
  split at h
  · exact absurd h (by simp)
  · rename_i hsize
    refine ⟨toULong (toInt32 s.length), ?_, (Option.some.inj h).symm⟩
    refine Nat.lt_of_not_le fun hle => hsize ?_
    rw [Nat.min_eq_right hle] at hesc
    obtain ⟨hlo, hhi, hmod⟩ := toInt32_spec s.length
    obtain ⟨hlo', hhi', hmod'⟩ := toInt32_spec (toInt32 s.length * 2 + 1)
    generalize toInt32 s.length = currQueryLen at *
    generalize toInt32 (currQueryLen * 2 + 1) = size at *
    unfold toULong at hle
    unfold toSizeT
    omega

/-! ## Decimal numbers -/

/-- The tokens of a decimal number. -/
def numberTokens (n : Int) : List Lexeme :=
  if 0 ≤ n then [(.word (digits n.toNat), digits n.toNat)]
  else [sep 45, (.word (digits (-n).toNat), digits (-n).toNat)]

section
variable {version : Nat} {b e : Bool}

theorem reads_nat {n : Nat} {p : Byte} (hp : isSeparator p) {X : List Byte} {ts : List Lexeme}
    (h : Reads version b (p :: X) ts e) :
    Reads version b (digits n ++ p :: X) ((.word (digits n), digits n) :: ts) e := by
  refine reads_digits hp (digits_ne_nil n) ?_ h
  intro c hc
  obtain ⟨hlo, hhi⟩ := digits_range hc
  simp [isDigit, hlo, hhi]

theorem reads_decimal {n : Int} {p : Byte} (hp : isSeparator p) {X : List Byte}
    {ts : List Lexeme} (h : Reads version b (p :: X) ts e) :
    Reads version b (decimal n ++ p :: X) (numberTokens n ++ ts) e := by
  rw [decimal_eq]
  unfold numberTokens
  by_cases hn : 0 ≤ n
  · rw [if_pos hn, if_pos hn]
    exact reads_nat hp h
  · rw [if_neg hn, if_neg hn]
    have hlex := reads_nat (n := (-n).toNat) hp h
    cases hd : digits (-n).toNat with
    | nil => exact absurd hd (digits_ne_nil _)
    | cons c s =>
        rw [hd] at hlex
        have hc : c ≠ 45 := by
          have := digits_range (n := (-n).toNat) (c := c) (by rw [hd]; exact List.mem_cons_self)
          intro h45
          rw [h45] at this
          exact absurd this.1 (by decide)
        exact reads_minus hc hlex

end

/-- The characters of a number are none of those that are escaped. -/
theorem decimal_plain {n : Int} {c : Byte} (h : c ∈ decimal n) : escapeSlash c = [c] ∧ c ≠ 0 := by
  unfold escapeSlash
  rcases decimal_range h with rfl | hrange
  · exact ⟨rfl, by decide⟩
  · grind

theorem decimal_escaped (n : Int) : (decimal n).flatMap escapeSlash = decimal n := by
  have h : ∀ s : List Byte, (∀ c ∈ s, escapeSlash c = [c]) → s.flatMap escapeSlash = s := by
    intro s
    induction s with
    | nil => exact fun _ => rfl
    | cons c s ih =>
        intro hs
        rw [List.flatMap_cons, hs c List.mem_cons_self,
          ih fun b hb => hs b (List.mem_cons_of_mem c hb), List.singleton_append]
  exact h _ fun c hc => (decimal_plain hc).1

theorem zero_notMem_decimal (n : Int) : 0 ∉ decimal n := fun h => (decimal_plain h).2 rfl

theorem escapedArg_decimal (n : Int32) :
    escapedArg (cStr (decimal n.toInt)) = some (decimal n.toInt) := by
  have := decimal_length n
  rw [cStr_eq_self (zero_notMem_decimal _), escapedArg_eq (by omega), decimal_escaped]

/-! ## The statement -/

theorem expandQuery_arg {rest a : List Byte} {args : List (Option (List Byte))} :
    expandQuery (63 :: rest) (some a :: args) =
      (escapedArg a).bind fun escaped => (expandQuery rest args).map fun t => escaped ++ t := by
  rw [expandQuery.eq_def (63 :: rest)]
  dsimp only
  rw [if_pos rfl]
  cases escapedArg a with
  | none => rfl
  | some t => cases expandQuery rest args <;> rfl

/-- The statement up to the parenthesis that opens the values. -/
def teamHead : List Lexeme :=
  [keyword "insert", blank, keyword "into", blank, keyword "team", sep 40, keyword "TeamId",
    sep comma, blank, keyword "TeamNumber", sep comma, blank, keyword "TeamDesc", sep 41, blank,
    keyword "values"]

/-- The statement with the escaped name `u` in place. -/
def teamText (n : Int) (u : List Byte) : List Byte :=
  rawText teamHead ++ 40 :: (decimal n ++ comma :: 32 :: (decimal n ++ comma :: 32 ::
    (quote :: u ++ quote :: [41])))

theorem insertTeam_eq (n : Int32) (name : List Byte) :
    insertTeam ⟨n, name⟩ = (escapedArg (cStr name)).map fun u => cStr (teamText n.toInt u) := by
  have htemplate : bytes "insert into team(TeamId, TeamNumber, TeamDesc) values(?, ?, '?')" =
      (rawText teamHead ++ [40]) ++ 63 :: ([comma, 32] ++ 63 :: ([comma, 32, quote] ++ 63 ::
        ([quote, 41] ++ []))) := by decide +kernel
  have hhead : (63 : Byte) ∉ rawText teamHead ++ [40] := by decide +kernel
  unfold insertTeam query
  dsimp only
  rw [htemplate, expandQuery_append hhead, expandQuery_arg, expandQuery_append (by decide),
    expandQuery_arg, expandQuery_append (by decide), expandQuery_arg,
    expandQuery_append (by decide), escapedArg_decimal]
  cases escapedArg (cStr name) with
  | none => rfl
  | some u => simp [expandQuery, teamText]

/-- The tokens in front of the literal of the name. -/
def teamFront (n : Int) : List Lexeme :=
  teamHead ++ sep 40 :: (numberTokens n ++ sep comma :: blank :: (numberTokens n ++
    [sep comma, blank]))

/--
A server of that version reads `text` as the INSERT of team `n`, and its last value as a
literal that decodes to `name`.
-/
def ReadsAsTeam (version : Nat) (text : List Byte) (n : Int) (name : List Byte) : Prop :=
  ∃ front raw, Lexes version text (front ++ [(.str name, raw), sep 41]) ∧
    tokens front = tokens (teamFront n)

section
variable {version : Nat}

theorem reads_blank {b e : Bool} {X : List Byte} {ts : List Lexeme} (h : Reads version b X ts e) :
    Reads version b (32 :: X) (blank :: ts) e := reads_cons.mpr ⟨X, rfl, rfl, h⟩

theorem lexes_teamHead (version : Nat) :
    Lexes version (rawText teamHead ++ [40]) (teamHead ++ [sep 40]) :=
  Reads.of_noSlash (by decide +kernel) (by decide +kernel) version

theorem lexes_teamText {n : Int} {u v : List Byte} (h : Body quote u v) :
    Lexes version (teamText n u) (teamFront n ++ [(.str v, quote :: u ++ [quote]), sep 41]) := by
  have hcomma : isSeparator comma := rfl
  have hend : Lexes version [41] [sep 41] := (reads_separator rfl).mpr .nil
  have hlast : Lexes version (quote :: u ++ quote :: [41])
      [(.str v, quote :: u ++ [quote]), sep 41] := reads_of_body h (by decide) hend
  have hsecond := reads_decimal (n := n) hcomma
    ((reads_separator hcomma).mpr (reads_blank hlast))
  have hfirst := reads_decimal (n := n) hcomma
    ((reads_separator hcomma).mpr (reads_blank hsecond))
  have hall := Reads.after (p := 40) rfl (lexes_teamHead version) hfirst
  have hts : teamFront n ++ [(.str v, quote :: u ++ [quote]), sep 41] =
      teamHead ++ sep 40 :: (numberTokens n ++ sep comma :: blank :: (numberTokens n ++
        sep comma :: blank :: [(.str v, quote :: u ++ [quote]), sep 41])) := by
    simp [teamFront]
  rw [hts]
  exact hall

/-- The escaped statement has no byte that would cut it off. -/
theorem cStr_teamText {n : Int} {u : List Byte} (hu : 0 ∉ u) :
    cStr (teamText n u) = teamText n u := by
  have hhead : (0 : Byte) ∉ rawText teamHead := by decide +kernel
  have hd := zero_notMem_decimal n
  refine cStr_eq_self ?_
  simp only [teamText, List.mem_append, List.mem_cons, List.not_mem_nil, or_false]
  simp [hhead, hd, hu, comma, quote]

theorem reads_iff_of_escaped {n : Int} {name s : List Byte} :
    ReadsAsTeam version (cStr (teamText n (s.flatMap escapeSlash))) n name ↔ s = name := by
  rw [cStr_teamText (zero_notMem_escaped s)]
  have hlex : Lexes version (teamText n (s.flatMap escapeSlash))
      (teamFront n ++ [(.str s, quote :: s.flatMap escapeSlash ++ [quote]), sep 41]) :=
    lexes_teamText (body_escaped s)
  constructor
  · rintro ⟨front, raw, h, _⟩
    have heq := (List.append_inj' (h.unique hlex).1 rfl).2
    have hhead := (Prod.mk.inj (List.cons.inj heq).1).1
    exact (Token.str.inj hhead).symm
  · intro hs
    subst hs
    exact ⟨_, _, hlex, rfl⟩

/-- From `2 ^ 30` bytes on, what is escaped is not the name. -/
theorem length_lt_of_reads {n : Int32} {name text : List Byte} (h0 : 0 ∉ name)
    (htext : insertTeam ⟨n, name⟩ = some text) (hreads : ReadsAsTeam version text n.toInt name) :
    name.length < 2 ^ 30 := by
  rw [insertTeam_eq, cStr_eq_self h0] at htext
  refine Nat.lt_of_not_le fun hlong => ?_
  obtain ⟨u, hu, hut⟩ := Option.map_eq_some_iff.mp htext
  obtain ⟨k, hk, hku⟩ := escapedArg_long hlong hu
  rw [← hut, hku, reads_iff_of_escaped] at hreads
  have hlen := congrArg List.length hreads
  rw [List.length_take] at hlen
  omega

end

/--
**Placeholder expansion is injection-free for names of less than `2 ^ 30` bytes**, and for
no longer ones.
-/
theorem insertTeam_reads_iff (version : Nat) (n : Int32) (name : List Byte) (h0 : 0 ∉ name) :
    (∃ text, insertTeam ⟨n, name⟩ = some text ∧ ReadsAsTeam version text n.toInt name) ↔
      name.length < 2 ^ 30 := by
  constructor
  · intro ⟨text, htext, hreads⟩
    exact length_lt_of_reads h0 htext hreads
  · intro hshort
    rw [insertTeam_eq, cStr_eq_self h0, escapedArg_eq hshort]
    exact ⟨_, rfl, reads_iff_of_escaped.mpr rfl⟩

theorem insertTeam_reads_quoted :
    (∃ text, insertTeam ⟨1138, bytes "Eagle's \\' Nest"⟩ = some text ∧
      ReadsAsTeam 80400 text (Int32.toInt 1138) (bytes "Eagle's \\' Nest")) ↔
      (bytes "Eagle's \\' Nest").length < 2 ^ 30 :=
  insertTeam_reads_iff 80400 1138 (bytes "Eagle's \\' Nest") (by decide +kernel)

/-- A name of `2 ^ 30` bytes does not reach the server as it is. -/
theorem insertTeam_long_name :
    ¬ ∃ version text, insertTeam ⟨1138, List.replicate (2 ^ 30) 65⟩ = some text ∧
      ReadsAsTeam version text (Int32.toInt 1138) (List.replicate (2 ^ 30) 65) := by
  rintro ⟨version, text, htext, hreads⟩
  have h0 : (0 : Byte) ∉ List.replicate (2 ^ 30) 65 := by
    intro h
    exact absurd (List.eq_of_mem_replicate h) (by decide)
  have hlt := length_lt_of_reads h0 htext hreads
  rw [List.length_replicate] at hlt
  exact Nat.lt_irrefl _ hlt

end ScoutComputer
