import ScoutComputer.Data.Database
import ScoutComputer.Lib.SqlTextProof

/-!
# What the server reads when a match is inserted

`addMatchDatapoints` splices seven strings into one statement, four of them without
quotes and none of them escaped. This file says exactly which strings leave the
statement an INSERT of seven values that decode to what the tablet sent.

The literals fix where the pieces of the template meet: each of them ends at the quote the
template closes it with, so the text in front of the first one, `teamID` and the timestamp
are read on their own, and the condition on the datapoint is one on each piece. What opens
a version comment in one of them may be closed in a later one; the state in between is the
only thing the pieces share.
-/

namespace ScoutComputer

open SqlText JsonParser

/-- A word and its text. -/
def keyword (s : String) : Lexeme := (.word (bytes s), bytes s)

def blank : Lexeme := (.space, [32])

/-- The statement up to the parenthesis that opens the values. -/
def insertHead : List Lexeme :=
  [keyword "insert", blank, keyword "into", blank, keyword "matchtransaction", blank, sep 40,
    blank, keyword "MatchId", sep comma, blank, keyword "ScouterID", sep comma, blank,
    keyword "DatapointID", sep comma, blank, blank, keyword "DCValue", sep comma, blank,
    keyword "TeamID", sep comma, blank, keyword "AllianceID", sep comma, blank,
    keyword "DCTimestamp", sep 41, blank, keyword "values", blank]

/-- The text spliced in front of the first literal. -/
def bareText (d : MatchDatapoint) : List Byte :=
  d.matchID ++ comma :: (d.scouterID ++ comma :: (d.datapointID ++ [comma]))

section
variable (version : Nat) (Value : List Lexeme → Prop)

/-- Three values, each followed by its comma. -/
def ThreeValues (bare : List Lexeme) : Prop :=
  ∃ a b c, bare = (a ++ sep comma :: (b ++ sep comma :: c)) ++ [sep comma] ∧
    Value a ∧ Value b ∧ Value c

/-- The timestamp value of a datapoint whose `DCTimestamp` was `stuff`. -/
def IsStamp (stuff : List Byte) (stamp : Lexeme) : Prop :=
  if stuff = bytes "noShow" then stamp = keyword "NULL" else stamp.1 = .str stuff

/--
A server of that version reads `text` as one INSERT into `matchtransaction` with exactly
seven values: three in front of the literal of `DCValue`, that literal, the one spliced in
for `teamID`, the literal of `AllianceId` and the timestamp. `Value` is what the grammar of
the server takes as one value; it sees the tokens with their text and all that stands
between them.
-/
def ReadsAsInsert (text : List Byte) (d : MatchDatapoint) (stuff : List Byte) : Prop :=
  ∃ bare team dc alliance stamp,
    Lexes version text (insertHead ++ sep 40 :: (bare ++ (.str d.DCValue, dc) :: sep comma ::
      (team ++ sep comma :: (.str d.AllianceId, alliance) :: sep comma ::
        stamp :: [sep 41, sep 59]))) ∧
    rawText bare = bareText d ∧ rawText team = d.teamID ∧
    ThreeValues Value bare ∧ Value team ∧ IsStamp stuff stamp

/-- The datapoints that cannot become syntax. -/
structure Harmless (d : MatchDatapoint) (stuff : List Byte) : Prop where
  /--
  The three strings in front of the first literal read as three values on their own, and
  `teamID` as one; `inside` says whether the literal between them stands in a version comment.
  -/
  values : ∃ inside bare team, Reads version false (bareText d) bare inside ∧
    ThreeValues Value bare ∧
    Reads version inside (d.teamID ++ [comma]) (team ++ [sep comma]) false ∧ Value team
  value : plainText d.DCValue
  alliance : plainText d.AllianceId
  stamp : stuff = bytes "noShow" ∨ plainText stuff
  /-- `c_str()` does not cut the statement off. -/
  whole : 0 ∉ insertMatch d

end

/-! ## The text -/

theorem rawText_insertHead : rawText insertHead ++ [40] = bytes "insert into matchtransaction ( MatchId, ScouterID, DatapointID,  DCValue, TeamID, AllianceID, DCTimestamp) values (" := by
  decide +kernel

theorem lexes_insertHead (version : Nat) :
    Lexes version (rawText insertHead ++ [40]) (insertHead ++ [sep 40]) :=
  Reads.of_noSlash (by decide +kernel) (by decide +kernel) version

/-- The statement after the last literal but one. -/
def stampTail (d : MatchDatapoint) : List Byte := d.DCTimestamp ++ [41, 59]

/-- The statement from the literal of `AllianceId` on. -/
def allianceTail (d : MatchDatapoint) : List Byte :=
  quote :: d.AllianceId ++ quote :: comma :: stampTail d

/-- The statement from the literal of `DCValue` on. -/
def valueTail (d : MatchDatapoint) : List Byte :=
  quote :: d.DCValue ++ quote :: comma :: (d.teamID ++ comma :: allianceTail d)

theorem insertMatch_eq (d : MatchDatapoint) :
    insertMatch d = rawText insertHead ++ 40 :: (bareText d ++ valueTail d) := by
  have hc : bytes "," = [comma] := rfl
  have hcq : bytes ",'" = [comma, quote] := rfl
  have hqc : bytes "'," = [quote, comma] := rfl
  have he : bytes ");" = [41, 59] := rfl
  unfold insertMatch
  rw [← rawText_insertHead, hc, hcq, hqc, he]
  simp [bareText, valueTail, allianceTail, stampTail]

/-! ## Harmful and harmless datapoints -/

theorem append_cons_prefix {A X Y : List Byte} {p : Byte} (h : A ++ p :: X <+: A ++ p :: Y) :
    X <+: Y := by
  rw [List.prefix_append_right_inj, List.cons_prefix_cons] at h
  exact h.2

section
variable {version : Nat} {Value : List Lexeme → Prop} {d : MatchDatapoint} {stuff : List Byte}

/-- The timestamp is read as what was spliced in, and so is the end of the statement. -/
theorem stamp_spliced {X : List Byte} {stamp : Lexeme} {b c : Bool} (hst : IsStamp stuff stamp)
    (hd : d.DCTimestamp = timestampText stuff)
    (hlex : Reads version b X [stamp, sep 41, sep 59] c) (hX : X <+: stampTail d) :
    (stuff = bytes "noShow" ∨ plainText stuff) ∧ X = stampTail d ∧ b = c := by
  -- neither the timestamp nor the end of the statement opens or closes a comment
  have hb : b = c := by
    have hstamp : stamp.1.inside b = b := by
      unfold IsStamp at hst
      split at hst
      · rw [hst]
        rfl
      · rw [hst]
        rfl
    obtain ⟨X₁, -, -, hend⟩ := reads_cons.mp hlex
    obtain ⟨X₂, -, -, hend⟩ := reads_cons.mp hend
    obtain ⟨X₃, -, -, hend⟩ := reads_cons.mp hend
    exact hstamp.symm.trans (reads_nil.mp hend).2
  unfold stampTail at hX ⊢
  rw [hd, timestampText] at hX ⊢
  unfold IsStamp at hst
  by_cases hs : stuff = bytes "noShow"
  · rw [if_pos hs] at hst hX ⊢
    refine ⟨Or.inl hs, ?_, hb⟩
    rw [← hlex.rawText_eq, hst]
    rfl
  · rw [if_neg hs] at hst hX ⊢
    have hq : bytes "'" = [quote] := rfl
    have htail : bytes "'" ++ stuff ++ bytes "'" ++ [41, 59] =
        quote :: stuff ++ quote :: 41 :: [59] := by simp [hq]
    rw [htail] at hX ⊢
    obtain ⟨tok, raw⟩ := stamp
    have htok : tok = .str stuff := hst
    subst htok
    obtain ⟨hplain, rest, hrest, hlex'⟩ := hlex.spliced rfl hX
    refine ⟨Or.inr hplain, ?_, hb⟩
    rw [hrest, ← hlex'.rawText_eq]
    rfl

theorem harmless_of_reads (hd : d.DCTimestamp = timestampText stuff)
    (h : ReadsAsInsert version Value (execQuery (insertMatch d)) d stuff) :
    Harmless version Value d stuff := by
  obtain ⟨bare, team, dc, alliance, stamp, hlex, hbare, hteam, h3, hv, hst⟩ := h
  have hT : execQuery (insertMatch d) <+: insertMatch d := cStr_prefix _
  have hnul : 0 ∉ execQuery (insertMatch d) := notMem_cStr _
  generalize execQuery (insertMatch d) = T at hlex hT hnul
  have hcomma : isSeparator comma := rfl
  rw [insertMatch_eq] at hT
  -- the head
  obtain ⟨X₁, m₁, hX₁, hhead, hlex₁⟩ := hlex.cut rfl
  obtain ⟨-, rfl⟩ := hhead.unique (lexes_insertHead version)
  rw [hX₁] at hT hnul
  have hT₁ := append_cons_prefix hT
  -- the three bare values
  have h3' := h3
  obtain ⟨a, b, c, hbare', -⟩ := h3'
  generalize a ++ sep comma :: (b ++ sep comma :: c) = A at hbare'
  subst hbare'
  rw [List.append_assoc] at hlex₁
  obtain ⟨X₂, inside, hX₂, hlexA, hlex₂⟩ := hlex₁.cut hcomma
  have hA : rawText A ++ [comma] = bareText d := by rw [← hbare, rawText_append]; rfl
  have hsplit : rawText A ++ comma :: X₂ = bareText d ++ X₂ := by rw [← hA]; simp
  rw [hX₂, hsplit] at hT₁ hnul
  rw [List.prefix_append_right_inj] at hT₁
  rw [hA] at hlexA
  -- the literal of `DCValue`
  obtain ⟨hvalue, X₃, hX₃, hT₃, hlex₃⟩ := hlex₂.spliced_separator hcomma hT₁
  -- the team
  obtain ⟨X₄, m₄, hX₄, hlexT, hlex₄⟩ := hlex₃.cut hcomma
  rw [hteam] at hlexT hX₄
  rw [hX₄] at hT₃
  have hT₄ := append_cons_prefix hT₃
  -- the literal of `AllianceId`
  obtain ⟨halliance, X₅, hX₅, hT₅, hlex₅⟩ := hlex₄.spliced_separator hcomma hT₄
  -- the timestamp, and with it the whole text
  obtain ⟨hstamp, hX, rfl⟩ := stamp_spliced hst hd hlex₅ hT₅
  refine ⟨⟨inside, _, team, hlexA, h3, hlexT, hv⟩, hvalue, halliance, hstamp, ?_⟩
  rw [hX₃, hX₄, hX₅, hX] at hnul
  rw [insertMatch_eq]
  exact hnul

/-- A harmless timestamp is read back. -/
theorem stamp_reads (hd : d.DCTimestamp = timestampText stuff)
    (h : stuff = bytes "noShow" ∨ plainText stuff) :
    ∃ stamp, IsStamp stuff stamp ∧ Lexes version (stampTail d) [stamp, sep 41, sep 59] := by
  unfold stampTail IsStamp
  rw [hd, timestampText]
  by_cases hs : stuff = bytes "noShow"
  · simp only [if_pos hs]
    refine ⟨keyword "NULL", rfl, ?_⟩
    exact Reads.of_noSlash (by decide +kernel) (by decide +kernel) version
  · simp only [if_neg hs]
    have hq : bytes "'" = [quote] := rfl
    have hplain : plainText stuff := h.resolve_left hs
    have htail : bytes "'" ++ stuff ++ bytes "'" ++ [41, 59] =
        quote :: stuff ++ quote :: 41 :: [59] := by simp [hq]
    refine ⟨(.str stuff, quote :: stuff ++ [quote]), rfl, ?_⟩
    rw [htail]
    exact reads_of_body (body_of_plainText hplain) (by decide)
      (Reads.of_noSlash (by decide) (by decide) version)

theorem reads_of_harmless (hd : d.DCTimestamp = timestampText stuff)
    (h : Harmless version Value d stuff) :
    ReadsAsInsert version Value (execQuery (insertMatch d)) d stuff := by
  obtain ⟨inside, bare, team, hbare, h3, hteam, hv⟩ := h.values
  obtain ⟨stamp, hst, hlex₅⟩ := stamp_reads hd h.stamp
  have hcomma : isSeparator comma := rfl
  -- from the end of the statement to its beginning
  have hlex₄ : Lexes version (allianceTail d)
      ((.str d.AllianceId, quote :: d.AllianceId ++ [quote]) :: sep comma ::
        stamp :: [sep 41, sep 59]) :=
    reads_of_body (body_of_plainText h.alliance) (by decide) ((reads_separator hcomma).mpr hlex₅)
  have hteamText : rawText team = d.teamID := by
    have := hteam.rawText_eq
    rw [rawText_append] at this
    exact List.append_cancel_right this
  rw [← hteamText] at hteam
  have hlex₃ := Reads.after hcomma hteam hlex₄
  rw [hteamText] at hlex₃
  have hlex₂ : Reads version inside (valueTail d)
      ((.str d.DCValue, quote :: d.DCValue ++ [quote]) :: sep comma :: _) false :=
    reads_of_body (body_of_plainText h.value) (by decide) ((reads_separator hcomma).mpr hlex₃)
  have h3' := h3
  obtain ⟨a, b, c, hbare', -⟩ := h3'
  generalize a ++ sep comma :: (b ++ sep comma :: c) = A at hbare'
  subst hbare'
  have hA : rawText A ++ [comma] = bareText d := by rw [← hbare.rawText_eq, rawText_append]; rfl
  have hbareText := hbare.rawText_eq
  rw [← hA] at hbare
  have hlex₁ := Reads.after hcomma hbare hlex₂
  have hlex := Reads.after (p := 40) rfl (lexes_insertHead version) hlex₁
  refine ⟨A ++ [sep comma], team, quote :: d.DCValue ++ [quote], quote :: d.AllianceId ++ [quote],
    stamp, ?_, hbareText, hteamText, h3, hv, hst⟩
  have htext : insertMatch d = rawText insertHead ++ 40 :: (rawText A ++ comma :: valueTail d) := by
    rw [insertMatch_eq, ← hA, List.append_assoc]
    rfl
  rw [execQuery, cStr_eq_self h.whole, htext, List.append_assoc]
  exact hlex

/-- **A datapoint leaves the statement an INSERT of its own values exactly when it is harmless.** -/
theorem parseMatch_insert_iff (version : Nat) (Value : List Lexeme → Prop) (p : JsonParser)
    (d : MatchDatapoint) (hd : d ∈ p.parseMatch) :
    ∃ e stuff, e ∈ p.scoutingData ∧ decodeMatch e = some d ∧
      stringAt e "DCTimestamp" = some stuff ∧
      (ReadsAsInsert version Value (execQuery (insertMatch d)) d stuff ↔
        Harmless version Value d stuff) := by
  obtain ⟨e, he, hdec⟩ := mem_parseMatch hd
  obtain ⟨stuff, hs, hts⟩ := decodeMatch_timestamp hdec
  exact ⟨e, stuff, he, hdec, hs, harmless_of_reads hts, reads_of_harmless hts⟩

end

/-- A document with one datapoint, about a robot that did not show up. -/
def noteDocument (note : String) : JsonParser :=
  ⟨.object [(bytes "scoutingData", .array [.object
    [(bytes "DCTimestamp", .str (bytes "noShow")), (bytes "DCValue", .str (bytes note)),
      (bytes "allianceID", .str (bytes "blue1")), (bytes "datapointID", .str (bytes "12")),
      (bytes "matchID", .str (bytes "3")), (bytes "scouterID", .str (bytes "7")),
      (bytes "teamID", .str (bytes "1138"))]])]⟩

/-- What `parseMatch` returns for it. -/
def noteDatapoint (note : String) : MatchDatapoint where
  scouterID := bytes "7"
  matchID := bytes "3"
  teamID := bytes "1138"
  datapointID := bytes "12"
  DCValue := bytes note
  DCTimestamp := bytes "NULL"
  AllianceId := bytes "blue1"

/-- A number that may stand in a version comment and between spaces. -/
def oneNumber (ts : List Lexeme) : Prop :=
  ∃ text, (tokens ts).filter (fun t => t ≠ .opening ∧ t ≠ .closing) = [.word text]

theorem parseMatch_insert_iff_fast :
    noteDatapoint "fast" ∈ (noteDocument "fast").parseMatch ∧
    ∃ e stuff, e ∈ (noteDocument "fast").scoutingData ∧
      decodeMatch e = some (noteDatapoint "fast") ∧ stringAt e "DCTimestamp" = some stuff ∧
      (ReadsAsInsert 80400 oneNumber (execQuery (insertMatch (noteDatapoint "fast")))
        (noteDatapoint "fast") stuff ↔
        Harmless 80400 oneNumber (noteDatapoint "fast") stuff) :=
  have h : noteDatapoint "fast" ∈ (noteDocument "fast").parseMatch := by decide +kernel
  ⟨h, parseMatch_insert_iff _ _ _ _ h⟩

/-- An apostrophe in the note of a scouter ends the literal. -/
theorem parseMatch_insert_apostrophe :
    noteDatapoint "can't climb" ∈ (noteDocument "can't climb").parseMatch ∧
    ∀ version Value, ¬ ReadsAsInsert version Value
      (execQuery (insertMatch (noteDatapoint "can't climb"))) (noteDatapoint "can't climb")
      (bytes "noShow") := by
  refine ⟨by decide +kernel, ?_⟩
  intro version Value h
  have hv : plainText (bytes "can't climb") := (harmless_of_reads rfl h).value
  exact absurd hv (by decide +kernel)

end ScoutComputer
