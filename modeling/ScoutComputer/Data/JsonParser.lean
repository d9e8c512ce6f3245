import ScoutComputer.Data.Json
import ScoutComputer.Lib.LongestPrefix

/-!
# `JsonParser`

`parseMatch` reads the elements of `scoutingData` one after the other into a vector.
An exception at any of them ends the loop, and what the vector holds by then is
returned.
-/

namespace ScoutComputer

/-- `MATCH_DATAPOINT`. -/
structure MatchDatapoint where
  scouterID : List Byte
  matchID : List Byte
  teamID : List Byte
  datapointID : List Byte
  DCValue : List Byte
  DCTimestamp : List Byte
  AllianceId : List Byte
  deriving DecidableEq

/-- The parser object: the document, or null when `json::parse` threw. -/
structure JsonParser where
  data : Json

open LongestPrefix

namespace JsonParser

/-- The constructor, over the parser it calls. -/
def ofText (parse : List Byte → Option Json) (datan : List Byte) : JsonParser :=
  ⟨(parse datan).getD .null⟩

/-- `std::string s = element[key]`. -/
def stringAt (element : Json) (key : String) : Option (List Byte) :=
  (element.index (bytes key)).bind Json.asString

/-- The SQL text stored for the timestamp. -/
def timestampText (stuff : List Byte) : List Byte :=
  if stuff = bytes "noShow" then bytes "NULL" else bytes "'" ++ stuff ++ bytes "'"

/-- The body of the loop of `parseMatch`. -/
def decodeMatch (element : Json) : Option MatchDatapoint := do
  let scouterID ← stringAt element "scouterID"
  let datapointID ← stringAt element "datapointID"
  let teamID ← stringAt element "teamID"
  let matchID ← stringAt element "matchID"
  let DCValue ← stringAt element "DCValue"
  let stuff ← stringAt element "DCTimestamp"
  let DCTimestamp := timestampText stuff
  let AllianceId ← stringAt element "allianceID"
  return { scouterID, matchID, teamID, datapointID, DCValue, DCTimestamp, AllianceId }

/-- The loop, with the datapoints collected so far. -/
def parseMatchLoop : List Json → List MatchDatapoint → List MatchDatapoint
  | [], datapoints => datapoints
  | element :: rest, datapoints =>
      match decodeMatch element with
      | none => datapoints
      | some currentDatapoint => parseMatchLoop rest (datapoints ++ [currentDatapoint])

/-- The elements `parseMatch` goes through; none when `scoutingData` cannot be looked up. -/
def scoutingData (p : JsonParser) : List Json :=
  match p.data.index (bytes "scoutingData") with
  | none => []
  | some d => d.elements

def parseMatch (p : JsonParser) : List MatchDatapoint := parseMatchLoop p.scoutingData []

theorem parseMatchLoop_eq (es : List Json) (acc : List MatchDatapoint) :
    parseMatchLoop es acc = acc ++ decoded decodeMatch es :=
  loop_eq (fun _ => rfl) (fun _ _ _ h => by rw [parseMatchLoop, h])
    (fun _ _ _ _ h => by rw [parseMatchLoop, h]) es acc

/-- `parseMatch` returns the longest prefix that decodes. -/
theorem parseMatch_eq (p : JsonParser) : p.parseMatch = decoded decodeMatch p.scoutingData :=
  parseMatchLoop_eq p.scoutingData []

/-- Every datapoint `parseMatch` returns is the decoding of an element. -/
theorem mem_parseMatch {p : JsonParser} {d : MatchDatapoint} (h : d ∈ p.parseMatch) :
    ∃ e ∈ p.scoutingData, decodeMatch e = some d := by
  rw [parseMatch_eq] at h
  obtain ⟨pre, e, post, hes, _, he⟩ := mem_decoded.mp h
  refine ⟨e, ?_, he⟩
  rw [hes]
  exact List.mem_append_right pre List.mem_cons_self

/-- The stored timestamp is built from the element's own string. -/
theorem decodeMatch_timestamp {e : Json} {d : MatchDatapoint} (h : decodeMatch e = some d) :
    ∃ stuff, stringAt e "DCTimestamp" = some stuff ∧ d.DCTimestamp = timestampText stuff := by
  simp only [decodeMatch, Option.bind_eq_bind, Option.bind_eq_some_iff] at h
  obtain ⟨_, _, _, _, _, _, _, _, _, _, stuff, hs, _, _, hd⟩ := h
  refine ⟨stuff, hs, ?_⟩
  cases hd
  rfl

end JsonParser

end ScoutComputer
