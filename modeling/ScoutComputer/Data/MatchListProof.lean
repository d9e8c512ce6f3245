import ScoutComputer.Data.InsertTeamProof
import ScoutComputer.Data.JsonReaders

/-!
# What the server reads when a match list is inserted

`addMatchList` splices the two strings of a match between quotes and escapes neither, so
they have to be plain; the number in front of them is read as it is.
-/

namespace ScoutComputer

open SqlText JsonParser

/-- The statement for one match of the list. -/
def insertMatchlist (temp3 : MatchlistDatapoint) : List Byte :=
  bytes "insert into scmatch ( MatchId, BAmatchId, Description) values (" ++
    decimal temp3.MatchId.toInt ++ bytes ",'" ++ temp3.BAmatchId ++ bytes "','" ++
    temp3.MatchDesc ++ bytes "');"

/-- The statements `addMatchList` submits, in order. -/
def addMatchList (matchs : List MatchlistDatapoint) : List (List Byte) :=
  matchs.map fun temp3 => execQuery (insertMatchlist temp3)

/-- `getmatchdata`: the text of `matchesList.csv`, and the statements submitted. -/
def getmatchdata (parse : List Byte → Option Json) (request : TbaRequest) :
    List Byte × List (List Byte) :=
  let pageData := makeTBAReq request
  (pageData, addMatchList (ofText parse pageData).parseMatchList)

/-- The statement up to the parenthesis that opens the values. -/
def scmatchHead : List Lexeme :=
  [keyword "insert", blank, keyword "into", blank, keyword "scmatch", blank, sep 40, blank,
    keyword "MatchId", sep comma, blank, keyword "BAmatchId", sep comma, blank,
    keyword "Description", sep 41, blank, keyword "values", blank]

/--
A server of that version reads `text` as the INSERT of match `n` with two literals that
decode to its strings.
-/
def ReadsAsScmatch (version : Nat) (text : List Byte) (n : Int) (key desc : List Byte) : Prop :=
  ∃ rawKey rawDesc, Lexes version text (scmatchHead ++ sep 40 :: (numberTokens n ++ sep comma ::
    (.str key, rawKey) :: sep comma :: [(.str desc, rawDesc), sep 41, sep 59]))

/-- The statement from the first literal on. -/
def keyTail (key desc : List Byte) : List Byte :=
  quote :: key ++ quote :: comma :: (quote :: desc ++ quote :: 41 :: [59])

theorem insertMatchlist_eq (m : MatchlistDatapoint) : insertMatchlist m =
    rawText scmatchHead ++ 40 :: (decimal m.MatchId.toInt ++ comma ::
      keyTail m.BAmatchId m.MatchDesc) := by
  have hhead : bytes "insert into scmatch ( MatchId, BAmatchId, Description) values (" =
      rawText scmatchHead ++ [40] := by decide +kernel
  have hopen : bytes ",'" = [comma, quote] := rfl
  have hmid : bytes "','" = [quote, comma, quote] := rfl
  have hend : bytes "');" = [quote, 41, 59] := rfl
  unfold insertMatchlist
  rw [hhead, hopen, hmid, hend]
  simp [keyTail]

theorem rawText_numberTokens (n : Int) : rawText (numberTokens n) = decimal n := by
  rw [decimal_eq]
  unfold numberTokens
  split <;> simp [rawText, sep]

theorem zero_notMem_insertMatchlist {m : MatchlistDatapoint} :
    0 ∉ insertMatchlist m ↔ 0 ∉ m.BAmatchId ∧ 0 ∉ m.MatchDesc := by
  have hhead : (0 : Byte) ∉ rawText scmatchHead := by decide +kernel
  have hd := zero_notMem_decimal m.MatchId.toInt
  rw [insertMatchlist_eq]
  simp [keyTail, hhead, hd, comma, quote]

section
variable {version : Nat}

/-- A match whose strings are plain is read as it is. -/
theorem reads_of_plain {m : MatchlistDatapoint} (hkey : plainText m.BAmatchId)
    (hdesc : plainText m.MatchDesc) (h0 : 0 ∉ m.BAmatchId ∧ 0 ∉ m.MatchDesc) :
    ReadsAsScmatch version (execQuery (insertMatchlist m)) m.MatchId.toInt m.BAmatchId
      m.MatchDesc := by
  have hcomma : isSeparator comma := rfl
  have hhead : Lexes version (rawText scmatchHead ++ [40]) (scmatchHead ++ [sep 40]) :=
    Reads.of_noSlash (by decide +kernel) (by decide +kernel) version
  have hend : Lexes version [41, 59] [sep 41, sep 59] :=
    (reads_separator rfl).mpr ((reads_separator rfl).mpr .nil)
  -- from the end of the statement to its beginning
  have hlast : Lexes version (quote :: m.MatchDesc ++ quote :: 41 :: [59])
      [(.str m.MatchDesc, quote :: m.MatchDesc ++ [quote]), sep 41, sep 59] :=
    reads_of_body (body_of_plainText hdesc) (by decide) hend
  have htail : Lexes version (keyTail m.BAmatchId m.MatchDesc)
      ((.str m.BAmatchId, quote :: m.BAmatchId ++ [quote]) :: sep comma ::
        [(.str m.MatchDesc, quote :: m.MatchDesc ++ [quote]), sep 41, sep 59]) :=
    reads_of_body (body_of_plainText hkey) (by decide) ((reads_separator hcomma).mpr hlast)
  have hnumber := reads_decimal (n := m.MatchId.toInt) hcomma
    ((reads_separator hcomma).mpr htail)
  rw [execQuery, cStr_eq_self (zero_notMem_insertMatchlist.mpr h0), insertMatchlist_eq]
  exact ⟨_, _, Reads.after (p := 40) rfl hhead hnumber⟩

/-- A match that is read as it is has plain strings. -/
theorem plain_of_reads {m : MatchlistDatapoint}
    (h : ReadsAsScmatch version (execQuery (insertMatchlist m)) m.MatchId.toInt m.BAmatchId
      m.MatchDesc) :
    plainText m.BAmatchId ∧ plainText m.MatchDesc ∧ 0 ∉ m.BAmatchId ∧ 0 ∉ m.MatchDesc := by
  obtain ⟨rawKey, rawDesc, hlex⟩ := h
  have hT : execQuery (insertMatchlist m) <+: insertMatchlist m := cStr_prefix _
  have hnul : 0 ∉ execQuery (insertMatchlist m) := notMem_cStr _
  generalize execQuery (insertMatchlist m) = T at hlex hT hnul
  have hcomma : isSeparator comma := rfl
  rw [insertMatchlist_eq] at hT
  -- the head and the number
  obtain ⟨X₁, m₁, hX₁, -, hlex₁⟩ := hlex.cut rfl
  rw [hX₁] at hT hnul
  have hT₁ := append_cons_prefix hT
  obtain ⟨X₂, m₂, hX₂, -, hlex₂⟩ := hlex₁.cut hcomma
  rw [hX₂, rawText_numberTokens] at hT₁
  have hT₂ := append_cons_prefix hT₁
  -- the two literals, and with the last one the whole text
  obtain ⟨hkey, X₃, hX₃, hT₃, hlex₃⟩ := hlex₂.spliced_separator hcomma hT₂
  obtain ⟨hdesc, X₄, hX₄, -, hlex₄⟩ := hlex₃.spliced_separator (p := 41) rfl hT₃
  have hend : X₄ = [59] := by rw [← hlex₄.rawText_eq]; rfl
  have hwhole : 0 ∉ insertMatchlist m := by
    rw [insertMatchlist_eq, keyTail]
    rw [hX₂, hX₃, hX₄, hend, rawText_numberTokens] at hnul
    exact hnul
  exact ⟨hkey, hdesc, zero_notMem_insertMatchlist.mp hwhole⟩

end

/--
**The match list reaches the server** with one statement for each match that was parsed,
in order, numbered as far as an `int` counts; a statement is read as its match exactly
when both strings are plain.
-/
theorem getmatchdata_reads_iff (version : Nat) (parse : List Byte → Option Json)
    (request : TbaRequest) :
    (getmatchdata parse request).2.length =
        (ofText parse (makeTBAReq request)).parseMatchList.length ∧
      ∀ (k : Nat) m, (ofText parse (makeTBAReq request)).parseMatchList[k]? = some m →
        k < 2 ^ 31 → ∃ text, (getmatchdata parse request).2[k]? = some text ∧
          (ReadsAsScmatch version text k m.BAmatchId m.MatchDesc ↔
            plainText m.BAmatchId ∧ plainText m.MatchDesc ∧ 0 ∉ m.BAmatchId ∧
              0 ∉ m.MatchDesc) := by
  refine ⟨List.length_map _, ?_⟩
  intro k m hm hk
  have hid : m.MatchId.toInt = k := by
    rw [(parseMatchList_spec _).2 k m hm]
    exact Int32.toInt_ofNat_of_lt hk
  refine ⟨execQuery (insertMatchlist m), ?_, ?_⟩
  · exact (List.getElem?_map ..).trans (congrArg (Option.map _) hm)
  · rw [← hid]
    exact ⟨plain_of_reads, fun h => reads_of_plain h.1 h.2.1 h.2.2⟩

/-- The response for an event with one match. -/
def oneMatch (level : String) : Json :=
  .array [.object [(bytes "comp_level", .str (bytes level)), (bytes "key", .str (bytes "f1m1"))]]

theorem getmatchdata_reads_iff_final :
    (ofText (fun _ => some (oneMatch "f")) (makeTBAReq (.performed [bytes "["] 0))).parseMatchList[0]?
        = some ⟨0, bytes "f1m1", bytes "f"⟩ ∧
      ∃ text, (getmatchdata (fun _ => some (oneMatch "f")) (.performed [bytes "["] 0)).2[0]? =
          some text ∧
        (ReadsAsScmatch 80400 text 0 (bytes "f1m1") (bytes "f") ↔
          plainText (bytes "f1m1") ∧ plainText (bytes "f") ∧ 0 ∉ bytes "f1m1" ∧ 0 ∉ bytes "f") :=
  have h : (ofText (fun _ => some (oneMatch "f"))
      (makeTBAReq (.performed [bytes "["] 0))).parseMatchList[0]? =
        some ⟨0, bytes "f1m1", bytes "f"⟩ := by
    rfl
  ⟨h, (getmatchdata_reads_iff _ _ _).2 0 _ h (by omega)⟩

end ScoutComputer
