import ScoutComputer.Data.RestReqHandler
import ScoutComputer.Lib.LongestPrefix

/-!
# What the three readers of `JsonParser` return

Each reader collects records until an element throws, so it returns the decodings of the
longest prefix that decodes. The numbers of the match list come from an `int` that counts
along.
-/

namespace ScoutComputer

open LongestPrefix

/-- `MATCHLIST_DATAPOINT`. -/
structure MatchlistDatapoint where
  MatchId : Int32
  BAmatchId : List Byte
  MatchDesc : List Byte

namespace JsonParser

/-- The body of the loop of `parseMatchList`. -/
def decodeMatchlist (i : Int32) (element : Json) : Option MatchlistDatapoint := do
  let BAmatchId ← Json.indexOr Json.asString (bytes "NULL") element "key"
  let MatchDesc ← Json.indexOr Json.asString (bytes "NULL") element "comp_level"
  return { MatchId := i, BAmatchId, MatchDesc }

/-- The loop, with the counter and the matches collected so far. -/
def parseMatchListLoop : Int32 → List Json → List MatchlistDatapoint → List MatchlistDatapoint
  | _, [], MatchlistData => MatchlistData
  | i, element :: rest, MatchlistData =>
      match decodeMatchlist i element with
      | none => MatchlistData
      | some currentDatapoint =>
          parseMatchListLoop (i + 1) rest (MatchlistData ++ [currentDatapoint])

def parseMatchList (p : JsonParser) : List MatchlistDatapoint :=
  parseMatchListLoop 0 p.data.elements []

/-! ## What an element has to be -/

/-- What `operator[]` finds its fields in. A null element turns into an empty object. -/
inductive Entries : Json → List (List Byte × Json) → Prop where
  | null : Entries .null []
  | object (kvs : List (List Byte × Json)) : Entries (.object kvs) kvs

/-- An absent or null field gives the default, any other one what it is converted to. -/
def OrDefault {α : Type} (convert : Json → Option α) (value : α) (found : Option Json) (a : α) :
    Prop :=
  ((found = none ∨ found = some .null) ∧ a = value) ∨
    ∃ j, found = some j ∧ j ≠ .null ∧ convert j = some a

/-- An element of `scoutingData`: all seven fields are strings. -/
def MatchReads (element : Json) (d : MatchDatapoint) : Prop :=
  ∃ kvs stuff, element = .object kvs ∧
    kvs.lookup (bytes "scouterID") = some (.str d.scouterID) ∧
    kvs.lookup (bytes "datapointID") = some (.str d.datapointID) ∧
    kvs.lookup (bytes "teamID") = some (.str d.teamID) ∧
    kvs.lookup (bytes "matchID") = some (.str d.matchID) ∧
    kvs.lookup (bytes "DCValue") = some (.str d.DCValue) ∧
    kvs.lookup (bytes "DCTimestamp") = some (.str stuff) ∧
    kvs.lookup (bytes "allianceID") = some (.str d.AllianceId) ∧
    d.DCTimestamp = timestampText stuff

def TeamReads (element : Json) (t : TeamRecord) : Prop :=
  ∃ kvs, Entries element kvs ∧
    OrDefault Json.asString (bytes "NULL") (kvs.lookup (bytes "nickname")) t.teamName ∧
    OrDefault Json.asInt 0 (kvs.lookup (bytes "team_number")) t.teamNum ∧
    OrDefault Json.asString (bytes "NULL") (kvs.lookup (bytes "website")) t.teamDesc

def MatchlistReads (element : Json) (m : MatchlistDatapoint) : Prop :=
  ∃ kvs, Entries element kvs ∧
    OrDefault Json.asString (bytes "NULL") (kvs.lookup (bytes "key")) m.BAmatchId ∧
    OrDefault Json.asString (bytes "NULL") (kvs.lookup (bytes "comp_level")) m.MatchDesc

theorem index_eq_some {element j : Json} {key : List Byte} :
    element.index key = some j ↔ ∃ kvs, Entries element kvs ∧ (kvs.lookup key).getD .null = j := by
  constructor
  · intro h
    cases element with
    | null => exact ⟨[], .null, Option.some.inj h⟩
    | object kvs => exact ⟨kvs, .object kvs, Option.some.inj h⟩
    | _ => exact absurd h (by simp [Json.index])
  · intro ⟨kvs, hkvs, hj⟩
    cases hkvs with
    | null => exact congrArg some hj
    | object kvs => exact congrArg some hj

theorem Entries.unique {element : Json} {kvs kvs' : List (List Byte × Json)}
    (h : Entries element kvs) (h' : Entries element kvs') : kvs = kvs' := by
  cases h with
  | null =>
      cases h'
      rfl
  | object kvs =>
      cases h'
      rfl

/-- A field that is a string is there, and the element is an object. -/
theorem stringAt_eq_some {element : Json} {key : String} {s : List Byte} :
    stringAt element key = some s ↔
      ∃ kvs, element = .object kvs ∧ kvs.lookup (bytes key) = some (.str s) := by
  unfold stringAt
  rw [Option.bind_eq_some_iff]
  constructor
  · intro ⟨j, hj, hs⟩
    rw [Json.asString_eq_some] at hs
    obtain ⟨kvs, hkvs, hget⟩ := index_eq_some.mp hj
    rw [hs] at hget
    have hfound : kvs.lookup (bytes key) = some (.str s) := by
      cases hlook : kvs.lookup (bytes key) with
      | none =>
          rw [hlook] at hget
          exact absurd hget (by simp)
      | some v =>
          rw [hlook, Option.getD_some] at hget
          rw [hget]
    cases hkvs with
    | null => exact absurd hfound (by simp)
    | object kvs => exact ⟨kvs, rfl, hfound⟩
  · intro ⟨kvs, helement, hfound⟩
    subst helement
    refine ⟨.str s, index_eq_some.mpr ⟨kvs, .object kvs, ?_⟩, rfl⟩
    rw [hfound, Option.getD_some]

theorem orDefault_iff {α : Type} {convert : Json → Option α} {value a : α}
    {found : Option Json} : OrDefault convert value found a ↔
      (match found.getD .null with
        | .null => some value
        | _ => convert (found.getD .null)) = some a := by
  unfold OrDefault
  constructor
  · intro h
    rcases h with ⟨hnone | hnull, ha⟩ | ⟨j, hj, hne, hconv⟩
    · rw [hnone, ha]
      rfl
    · rw [hnull, ha]
      rfl
    · rw [hj, Option.getD_some]
      cases j with
      | null => exact absurd rfl hne
      | _ => exact hconv
  · intro h
    cases hfound : found with
    | none =>
        rw [hfound] at h
        exact Or.inl ⟨Or.inl rfl, (Option.some.inj h).symm⟩
    | some j =>
        rw [hfound, Option.getD_some] at h
        cases j with
        | null => exact Or.inl ⟨Or.inr rfl, (Option.some.inj h).symm⟩
        | _ => exact Or.inr ⟨_, rfl, by simp, h⟩

theorem indexOr_eq_some {α : Type} {convert : Json → Option α} {value a : α} {element : Json}
    {key : String} : Json.indexOr convert value element key = some a ↔
      ∃ kvs, Entries element kvs ∧ OrDefault convert value (kvs.lookup (bytes key)) a := by
  unfold Json.indexOr
  simp only [Option.bind_eq_bind, Option.bind_eq_some_iff, index_eq_some, orDefault_iff]
  constructor
  · intro h
    obtain ⟨j, ⟨kvs, hkvs, hj⟩, ha⟩ := h
    subst hj
    exact ⟨kvs, hkvs, ha⟩
  · intro h
    obtain ⟨kvs, hkvs, ha⟩ := h
    exact ⟨_, ⟨kvs, hkvs, rfl⟩, ha⟩

/-! ## The decoders -/

theorem decodeMatch_eq_some {element : Json} {d : MatchDatapoint} :
    decodeMatch element = some d ↔ MatchReads element d := by
  unfold decodeMatch MatchReads
  simp only [Option.bind_eq_bind, Option.bind_eq_some_iff, stringAt_eq_some]
  constructor
  · intro ⟨_, ⟨kvs, hkvs, h1⟩, _, ⟨k2, hk2, h2⟩, _, ⟨k3, hk3, h3⟩, _, ⟨k4, hk4, h4⟩,
      _, ⟨k5, hk5, h5⟩, stuff, ⟨k6, hk6, h6⟩, _, ⟨k7, hk7, h7⟩, hd⟩
    subst hkvs
    cases hk2
    cases hk3
    cases hk4
    cases hk5
    cases hk6
    cases hk7
    cases hd
    exact ⟨kvs, stuff, rfl, h1, h2, h3, h4, h5, h6, h7, rfl⟩
  · intro ⟨kvs, stuff, helement, h1, h2, h3, h4, h5, h6, h7, hstamp⟩
    refine ⟨_, ⟨kvs, helement, h1⟩, _, ⟨kvs, helement, h2⟩, _, ⟨kvs, helement, h3⟩,
      _, ⟨kvs, helement, h4⟩, _, ⟨kvs, helement, h5⟩, stuff, ⟨kvs, helement, h6⟩,
      _, ⟨kvs, helement, h7⟩, ?_⟩
    obtain ⟨_, _, _, _, _, stamp, _⟩ := d
    cases hstamp
    rfl

theorem decodeTeam_eq_some {element : Json} {t : TeamRecord} :
    decodeTeam element = some t ↔ TeamReads element t := by
  unfold decodeTeam TeamReads
  simp only [Option.bind_eq_bind, Option.bind_eq_some_iff, indexOr_eq_some]
  constructor
  · intro ⟨_, ⟨kvs, hkvs, hname⟩, _, ⟨k2, hk2, hnum⟩, _, ⟨k3, hk3, hdesc⟩, ht⟩
    cases hkvs.unique hk2
    cases hkvs.unique hk3
    cases ht
    exact ⟨kvs, hkvs, hname, hnum, hdesc⟩
  · intro ⟨kvs, hkvs, hname, hnum, hdesc⟩
    exact ⟨_, ⟨kvs, hkvs, hname⟩, _, ⟨kvs, hkvs, hnum⟩, _, ⟨kvs, hkvs, hdesc⟩, rfl⟩

theorem decodeMatchlist_eq_some {i : Int32} {element : Json} {m : MatchlistDatapoint} :
    decodeMatchlist i element = some m ↔ MatchlistReads element m ∧ m.MatchId = i := by
  unfold decodeMatchlist MatchlistReads
  simp only [Option.bind_eq_bind, Option.bind_eq_some_iff, indexOr_eq_some]
  constructor
  · intro ⟨_, ⟨kvs, hkvs, hkey⟩, _, ⟨k2, hk2, hlevel⟩, hm⟩
    cases hkvs.unique hk2
    cases hm
    exact ⟨⟨kvs, hkvs, hkey, hlevel⟩, rfl⟩
  · intro ⟨⟨kvs, hkvs, hkey, hlevel⟩, hid⟩
    subst hid
    exact ⟨_, ⟨kvs, hkvs, hkey⟩, _, ⟨kvs, hkvs, hlevel⟩, rfl⟩

/-! ## The loops -/

theorem parseTeams_decoded (p : JsonParser) : p.parseTeams = decoded decodeTeam p.data.elements :=
  loop_eq (fun _ => rfl) (fun _ _ _ h => by rw [parseTeamsLoop, h])
    (fun _ _ _ _ h => by rw [parseTeamsLoop, h]) p.data.elements []

/-- The loop of `parseMatchList` from any counter. -/
theorem parseMatchListLoop_spec (i : Int32) (es : List Json) (acc : List MatchlistDatapoint) :
    ∃ ms, parseMatchListLoop i es acc = acc ++ ms ∧ IsLongest MatchlistReads es ms ∧
      ∀ k m, ms[k]? = some m → m.MatchId = i + Int32.ofNat k := by
  induction es generalizing i acc with
  | nil =>
      refine ⟨[], (List.append_nil acc).symm, ?_, fun k m h => absurd h (by simp)⟩
      exact ⟨[], [], rfl, .nil, fun e h => absurd h (by simp)⟩
  | cons e es ih =>
      cases hd : decodeMatchlist i e with
      | none =>
          refine ⟨[], ?_, ?_, fun k m h => absurd h (by simp)⟩
          · rw [parseMatchListLoop, hd, List.append_nil]
          · refine ⟨[], e :: es, rfl, .nil, ?_⟩
            intro e' he' m hm
            have heq : e = e' := Option.some.inj he'
            subst heq
            -- the counter does not matter for whether an element decodes
            have hsome : decodeMatchlist i e = some { m with MatchId := i } :=
              decodeMatchlist_eq_some.mpr ⟨hm, rfl⟩
            rw [hd] at hsome
            exact absurd hsome (by simp)
      | some m =>
          obtain ⟨hm, hid⟩ := decodeMatchlist_eq_some.mp hd
          obtain ⟨ms, hms, ⟨pre, post, hes, hall, hstop⟩, hids⟩ := ih (i + 1) (acc ++ [m])
          refine ⟨m :: ms, ?_, ⟨e :: pre, post, ?_, .cons hm hall, hstop⟩, ?_⟩
          · rw [parseMatchListLoop, hd]
            dsimp only
            rw [hms, List.append_assoc, List.singleton_append]
          · rw [hes, List.cons_append]
          · intro k m' hk
            cases k with
            | zero =>
                have heq : m = m' := Option.some.inj hk
                rw [← heq, hid]
                exact (Int32.add_zero i).symm
            | succ k =>
                rw [hids k m' hk, Int32.add_assoc, Int32.ofNat_add k 1, Int32.add_comm 1]
                rfl

theorem parseMatchList_spec (p : JsonParser) :
    IsLongest MatchlistReads p.data.elements p.parseMatchList ∧
      ∀ k m, p.parseMatchList[k]? = some m → m.MatchId = Int32.ofNat k := by
  obtain ⟨ms, hms, hlong, hids⟩ := parseMatchListLoop_spec 0 p.data.elements []
  have heq : p.parseMatchList = ms := hms
  rw [heq]
  refine ⟨hlong, fun k m hk => ?_⟩
  rw [hids k m hk, Int32.zero_add]

/--
**The readers return the decodings of the longest prefix that decodes**, one record for
each element, and number the matches of the list as far as an `int` counts. A text that
does not parse has no elements.
-/
theorem readers_longest (parse : List Byte → Option Json) (datan : List Byte) :
    IsLongest MatchReads (ofText parse datan).scoutingData (ofText parse datan).parseMatch ∧
    IsLongest TeamReads (ofText parse datan).data.elements
      (ofText parse datan).parseTeams ∧
    IsLongest MatchlistReads (ofText parse datan).data.elements
      (ofText parse datan).parseMatchList ∧
    (∀ (k : Nat) m, (ofText parse datan).parseMatchList[k]? = some m → k < 2 ^ 31 →
      m.MatchId.toInt = k) ∧
    (parse datan = none → (ofText parse datan).parseMatch = [] ∧
      (ofText parse datan).parseTeams = [] ∧ (ofText parse datan).parseMatchList = []) := by
  have hmatchlist := parseMatchList_spec (ofText parse datan)
  refine ⟨?_, ?_, hmatchlist.1, ?_, ?_⟩
  · rw [parseMatch_eq]
    exact isLongest_decoded (fun _ _ => decodeMatch_eq_some) _
  · rw [parseTeams_decoded]
    exact isLongest_decoded (fun _ _ => decodeTeam_eq_some) _
  · intro k m hk hlt
    rw [hmatchlist.2 k m hk]
    exact Int32.toInt_ofNat_of_lt hlt
  · intro hparse
    unfold ofText
    rw [hparse]
    exact ⟨rfl, rfl, rfl⟩

/-- An array of one more null than an `int` can number. -/
def manyMatchesText : List Byte :=
  bytes "[" ++ (List.replicate (2 ^ 31) (bytes "null,")).flatten ++ bytes "null]"

/-- A parser that knows this one text. -/
def parseManyMatches (s : List Byte) : Option Json :=
  if s = manyMatchesText then some (.array (List.replicate (2 ^ 31 + 1) .null)) else none

theorem matchlistReads_null : ∃ m, MatchlistReads .null m :=
  ⟨⟨0, bytes "NULL", bytes "NULL"⟩, [], .null, Or.inl ⟨Or.inl rfl, rfl⟩,
    Or.inl ⟨Or.inl rfl, rfl⟩⟩

/-- Of an array of nulls, every element is returned. -/
theorem parseMatchList_nulls (p : JsonParser) {n : Nat}
    (hp : p.data.elements = List.replicate n .null) : p.parseMatchList.length = n := by
  obtain ⟨⟨pre, post, hes, hall, hstop⟩, _⟩ := parseMatchList_spec p
  have hpost : post = [] := by
    cases post with
    | nil => rfl
    | cons e post =>
        have he : e = .null := by
          refine List.eq_of_mem_replicate (n := n) ?_
          rw [← hp, hes]
          simp
        obtain ⟨m, hm⟩ := matchlistReads_null
        rw [← he] at hm
        exact absurd hm (hstop e rfl m)
  rw [← hall.length_eq, ← List.length_replicate (n := n) (a := Json.null), ← hp, hes, hpost,
    List.append_nil]

/-- The last of these matches has a negative number. -/
theorem parseMatchList_manyMatches :
    ¬ ∀ (k : Nat) m, (ofText parseManyMatches manyMatchesText).parseMatchList[k]? = some m →
      m.MatchId.toInt = k := by
  intro hall
  have hdoc : (ofText parseManyMatches manyMatchesText).data.elements =
      List.replicate (2 ^ 31 + 1) .null := by
    have hparse : parseManyMatches manyMatchesText =
        some (.array (List.replicate (2 ^ 31 + 1) .null)) := if_pos rfl
    unfold ofText
    rw [hparse]
    rfl
  have hlen := parseMatchList_nulls _ hdoc
  obtain ⟨m, hm⟩ : ∃ m, (ofText parseManyMatches manyMatchesText).parseMatchList[2 ^ 31]? =
      some m := by
    refine ⟨_, List.getElem?_eq_getElem ?_⟩
    rw [hlen]
    exact Nat.lt_succ_self _
  have hid := hall _ m hm
  rw [(parseMatchList_spec _).2 _ m hm] at hid
  exact absurd hid (by decide)

end JsonParser

end ScoutComputer
