import ScoutComputer.Data.JsonParser

/-!
# `Database` and `DatabaseMan`

Which text reaches the server. `execQuery` passes its statement on as it is, `query`
first replaces every question mark of the statement by its next argument, escaped.
-/

namespace ScoutComputer

/-! ## `Database` -/

/-- The text `execQuery(statement, length)` gives to `mysql_query`. -/
def execQuery (statement : List Byte) : List Byte := cStr statement

/-- What `mysql_cset_escape_slashes` writes for a byte of a single-byte character set. -/
def escapeSlash (c : Byte) : List Byte :=
  if c = 0 then [92, 48]
  else if c = 10 then [92, 110]
  else if c = 13 then [92, 114]
  else if c = 92 ∨ c = 39 ∨ c = 34 then [92, c]
  else if c = 26 then [92, 90]
  else [c]

/-- `mysql_real_escape_string` on the first `length` bytes of `text`. -/
def mysqlRealEscapeString (text : List Byte) (length : Nat) : List Byte :=
  (text.take length).flatMap escapeSlash

/--
What one argument adds to the query. `none` when the buffer is NULL, as it is for a
size of `2 ^ 63` or more, or too small for the escaped text and its terminator.
-/
def escapedArg (currQuery : List Byte) : Option (List Byte) :=
  let currQueryLen := toInt32 currQuery.length
  let size := toSizeT (toInt32 (currQueryLen * 2 + 1))
  let escaped := mysqlRealEscapeString currQuery (toULong currQueryLen)
  if 2 ^ 63 ≤ size ∨ size < escaped.length + 1 then none else some (cStr escaped)

/-- The loop of `query`. A NULL argument adds nothing, a missing one is undefined. -/
def expandQuery : List Byte → List (Option (List Byte)) → Option (List Byte)
  | [], _ => some []
  | c :: queryStatement, queryArgs =>
      if c = 63 then
        match queryArgs with
        | [] => none
        | none :: queryArgs => expandQuery queryStatement queryArgs
        | some currQuery :: queryArgs => do
            let escaped ← escapedArg currQuery
            let fullQuery ← expandQuery queryStatement queryArgs
            return escaped ++ fullQuery
      else do
        let fullQuery ← expandQuery queryStatement queryArgs
        return c :: fullQuery

/-- The text `query(queryStatement, …)` gives to `mysql_query`. -/
def query (queryStatement : List Byte) (queryArgs : List (Option (List Byte))) :
    Option (List Byte) := (expandQuery queryStatement queryArgs).map cStr

theorem expandQuery_cons {c : Byte} (hc : c ≠ 63) (s : List Byte)
    (args : List (Option (List Byte))) :
    expandQuery (c :: s) args = (expandQuery s args).map fun t => c :: t := by
  rw [expandQuery.eq_def (c :: s)]
  dsimp only
  rw [if_neg hc]
  cases expandQuery s args <;> rfl

/-- Text without placeholders is copied. -/
theorem expandQuery_append {s rest : List Byte} {args : List (Option (List Byte))}
    (h : 63 ∉ s) :
    expandQuery (s ++ rest) args = (expandQuery rest args).map fun t => s ++ t := by
  induction s with
  | nil => simp
  | cons c s ih =>
      have hc : c ≠ 63 := fun hc => h (hc ▸ List.mem_cons_self)
      rw [List.cons_append, expandQuery_cons hc, ih fun hs => h (List.mem_cons_of_mem c hs),
        Option.map_map]
      rfl

/-! ## `DatabaseMan` -/

/-- The statement for one datapoint of a match. -/
def insertMatch (temp : MatchDatapoint) : List Byte :=
  bytes "insert into matchtransaction ( MatchId, ScouterID, DatapointID,  DCValue, TeamID, AllianceID, DCTimestamp) values (" ++
    temp.matchID ++ bytes "," ++ temp.scouterID ++ bytes "," ++ temp.datapointID ++ bytes ",'" ++
    temp.DCValue ++ bytes "'," ++ temp.teamID ++ bytes ",'" ++ temp.AllianceId ++ bytes "'," ++
    temp.DCTimestamp ++ bytes ");"

/-- The statements `addMatchDatapoints` submits, in order. -/
def addMatchDatapoints (datapoints : List MatchDatapoint) : List (List Byte) :=
  datapoints.map fun temp => execQuery (insertMatch temp)

/-- `TEAM_DATAPOINT`, without the description nothing reads. -/
structure TeamDatapoint where
  teamNum : Int32
  teamName : List Byte
  deriving DecidableEq

/-- The statement for one team. -/
def insertTeam (temp2 : TeamDatapoint) : Option (List Byte) :=
  let teamNum := decimal temp2.teamNum.toInt
  query (bytes "insert into team(TeamId, TeamNumber, TeamDesc) values(?, ?, '?')")
    [some (cStr teamNum), some (cStr teamNum), some (cStr temp2.teamName)]

/-- The statements `addTeams` submits, in order. -/
def addTeams (teams : List TeamDatapoint) : List (Option (List Byte)) := teams.map insertTeam

end ScoutComputer
