import ScoutComputer.Data.Connection

/-!
# `RestReqHandler` and the buttons of the database screen

A request returns whatever of the body was received, without a word on whether it
succeeded, and the parser returns the teams in front of the first element it cannot
decode. The rest button deletes the table of teams first and then adds 23 pages.
-/

namespace ScoutComputer

namespace Json

/-- The conversion to `int`; a number that does not fit is what the processor makes of it. -/
def asInt : Json → Option Int32
  | int n => some (Int32.ofInt n)
  | float q =>
      if -2147483649 < q ∧ q < 2147483648 then some (Int32.ofInt (q.num.tdiv q.den))
      else some Int32.minValue
  | bool b => some (if b then 1 else 0)
  | _ => none

/-- `(!element[key].is_null()) ? element[key] : value`, over the conversion that is chosen. -/
def indexOr {α : Type} (convert : Json → Option α) (value : α) (element : Json) (key : String) :
    Option α := do
  let j ← element.index (bytes key)
  match j with
  | null => return value
  | _ => convert j

end Json

/-- `TEAM_DATAPOINT` with the description, which nothing behind the parser reads. -/
structure TeamRecord extends TeamDatapoint where
  teamDesc : List Byte

namespace JsonParser

/-- The body of the loop of `parseTeams`. -/
def decodeTeam (element : Json) : Option TeamRecord := do
  let teamName ← Json.indexOr Json.asString (bytes "NULL") element "nickname"
  let teamNum ← Json.indexOr Json.asInt 0 element "team_number"
  let teamDesc ← Json.indexOr Json.asString (bytes "NULL") element "website"
  return { teamNum, teamName, teamDesc }

/-- The loop, with the teams collected so far. -/
def parseTeamsLoop : List Json → List TeamRecord → List TeamRecord
  | [], Teamsdata => Teamsdata
  | element :: rest, Teamsdata =>
      match decodeTeam element with
      | none => Teamsdata
      | some currentDatapoint => parseTeamsLoop rest (Teamsdata ++ [currentDatapoint])

def parseTeams (p : JsonParser) : List TeamRecord := parseTeamsLoop p.data.elements []

end JsonParser

/-! ## `RestReqHandler` -/

/--
What comes of one request: no handle, no file with the key, or a transfer with the
pieces of the body that arrived and the code it ended with.
-/
inductive TbaRequest where
  | noHandle
  | noKey
  | performed (chunks : List (List Byte)) (res : Nat)

/-- `makeTBAReq`. The code is only printed. -/
def makeTBAReq : TbaRequest → List Byte
  | .noHandle => []
  | .noKey => []
  | .performed chunks _ => chunks.flatten

section
variable {σ : Type} (server : Server σ) (parse : List Byte → Option Json)

/-- The teams of one response, as the other classes read them. -/
def teamsOf (request : TbaRequest) : List TeamDatapoint :=
  (JsonParser.ofText parse (makeTBAReq request)).parseTeams.map TeamRecord.toTeamDatapoint

/-- `getteamdata`. -/
def getteamdata (request : TbaRequest) (db : Database σ) : Option (Database σ) :=
  DatabaseMan.addTeams server (teamsOf parse request) db

/-- What the rest button does; `requests` are the requests for the pages. -/
def restPressed (requests : Nat → TbaRequest) (db : Database σ) : Option (Database σ) := do
  let db ← DatabaseMan.clearTeams server db
  (List.range 23).foldlM (fun db i => getteamdata server parse (requests i) db) db

end

/-! ## The two files of the local database -/

/-- `for (…) file << "," << entry` behind the first entry. -/
def commaSeparated : List (List Byte) → List Byte
  | [] => []
  | entry :: entries => entry ++ entries.flatMap fun e => bytes "," ++ e

/-- One row of `scouterList.csv`; `none` when the row is too short to be read so. -/
def scouterEntry : List (List Byte) → Option (List Byte)
  | first :: last :: id :: _ => some (first ++ bytes " " ++ last ++ bytes ":" ++ id)
  | _ => none

/-- `scouterList.csv` after the button was pressed, from what it was and the table queried. -/
def scouterUpdate (result : Table) (file : List Byte) : Option (List Byte) :=
  match result with
  | [] => some file
  | row :: _ =>
      if row.length = 3 then (result.mapM scouterEntry).map commaSeparated else some file

/-- `teamCompList.csv` after `getteamsatcomphdata`. -/
def getteamsatcomphdata (parse : List Byte → Option Json) (request : TbaRequest)
    (file : List Byte) : List Byte :=
  match teamsOf parse request with
  | [] => file
  | teamsList => commaSeparated (teamsList.map fun team => decimal team.teamNum.toInt)

end ScoutComputer
