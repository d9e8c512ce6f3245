import ScoutComputer.Data.Database

/-!
# The connection of a `Database`

`mysql_query` is refused as out of sync unless the connection is ready. A statement
with columns leaves it waiting for its result to be taken, a result that was taken
keeps it busy, and only the fetch that finds no row or `mysql_free_result` makes it
ready again. `query` and `execQuery` are two loops over the rows of such a result.
-/

namespace ScoutComputer

/-- A cell of a row: NULL, or the text it points to. -/
abbrev Cell : Type := Option (List Byte)

/-- What the two routines return. -/
abbrev Table : Type := List (List (List Byte))

/-- The rows that arrive before a result ends. -/
structure ResultSet where
  columns : Nat
  rows : List (List Cell)
  hasColumns : 0 < columns
  width : ∀ row ∈ rows, row.length = columns

/--
What comes of a statement the server is asked: an error, no columns, or columns. The
last also says whether `mysql_use_result` finds the memory for the result.
-/
inductive Reply where
  | error
  | done
  | columns (result : Option ResultSet)

/-- A server with its tables: what it answers to a text, and the tables afterwards. -/
abbrev Server (σ : Type) : Type := σ → List Byte → σ × Reply

inductive MysqlStatus where
  | ready
  | getResult
  | useResult
  deriving DecidableEq

/-- `MYSQL`: its status, and the columns of a statement whose result was not taken yet. -/
structure Mysql where
  status : MysqlStatus
  fields : Option (Option ResultSet)

/-- A `Database` object and the tables behind it. -/
structure Database (σ : Type) where
  mysql : Mysql
  tables : σ

namespace Mysql

/-- What a statement that was sent makes of a connection; `true` is an error. -/
def answered : Reply → Bool × Mysql
  | .error => (true, ⟨.ready, none⟩)
  | .done => (false, ⟨.ready, none⟩)
  | .columns result => (false, ⟨.getResult, some result⟩)

/-- `mysql_use_result`. -/
def useResult (m : Mysql) : Option ResultSet × Mysql :=
  match m.fields with
  | none => (none, m)
  | some result =>
      if m.status ≠ .getResult then (none, m)
      else
        match result with
        | none => (none, m)
        | some result => (some result, ⟨.useResult, none⟩)

/-- `mysql_free_result` on what `mysql_use_result` returned. -/
def freeResult (result : Option ResultSet) (m : Mysql) : Mysql :=
  match result with
  | none => m
  | some _ => if m.status = .useResult then { m with status := .ready } else m

/-- The call of `mysql_fetch_row` that returns NULL, after the last row of a result. -/
def endOfRows (m : Mysql) : Mysql := { m with status := .ready }

end Mysql

namespace Database

variable {σ : Type}

/-- The object after its constructor. -/
def connect (tables : σ) : Database σ := ⟨⟨.ready, none⟩, tables⟩

/-- `mysql_query`; `true` is an error. -/
def mysqlQuery (server : Server σ) (text : List Byte) (db : Database σ) : Bool × Database σ :=
  if db.mysql.status ≠ .ready then (true, ⟨{ db.mysql with fields := none }, db.tables⟩)
  else
    let (tables, reply) := server db.tables text
    let (error, mysql) := Mysql.answered reply
    (error, ⟨mysql, tables⟩)

/--
`vector.at(i)`, with the entries the body pushes onto that row. `at` throws where there is no
such row; it takes a `size_t`, so a counter that has become negative names none.
-/
def pushAt (i : Int) (entries : List (List Byte)) (vector : Table) : Option Table :=
  if entries = [] then some vector
  else if 0 ≤ i ∧ i < vector.length then some (vector.modify i.toNat (· ++ entries))
  else none

/--
The loop over `row[0]` to `row[length - 1]` of row number `i`, where `shows` is what the body
pushes for a cell. `none` once it reads past the row, or `at` throws.
-/
def readCells (shows : Cell → List (List Byte)) (i : Int) :
    List Cell → Nat → Table → Option Table
  | _, 0, vector => some vector
  | [], _ + 1, _ => none
  | cell :: row, length + 1, vector => do
      let vector ← pushAt i (shows cell) vector
      readCells shows i row length vector

/-- The loop over the rows, with an `int` that counts them. -/
def fetchRows (shows : Cell → List (List Byte)) (length : Nat) :
    List (List Cell) → Int → Table → Option Table
  | [], _, vector => some vector
  | row :: rows, i, vector => do
      let vector ← readCells shows i row length (vector ++ [[]])
      fetchRows shows length rows (toInt32 (i + 1)) vector

/-- The text `query` shows for a cell. -/
def shown : Cell → List Byte
  | none => bytes "NULL"
  | some text => cStr text

/-- What the body of the inner loop of `query` pushes. -/
def queryCell (cell : Cell) : List (List Byte) := [shown cell]

/-- What the body of the inner loop of `execQuery` pushes. -/
def execCell : Cell → List (List Byte)
  | none => []
  | some text => [cStr text]

/-- `query`. The result is `none` where it throws or its behaviour is undefined. -/
def query (server : Server σ) (queryStatement : List Byte)
    (queryArgs : List (Option (List Byte))) (db : Database σ) : Option (Table × Database σ) := do
  let fullQuery ← ScoutComputer.query queryStatement queryArgs
  match db.mysqlQuery server fullQuery with
  | (true, db) => return ([], db)
  | (false, db) =>
      let (result, mysql) := db.mysql.useResult
      match result with
      | none => return ([], { db with mysql := mysql.freeResult none })
      | some res =>
          let resultVector ← fetchRows queryCell res.columns res.rows 0 []
          return (resultVector, { db with mysql := mysql.endOfRows.freeResult result })

/-- `execQuery`. The result is `none` where it throws or its behaviour is undefined. -/
def execQuery (server : Server σ) (statement : List Byte) (length : Int) (db : Database σ) :
    Option (Table × Database σ) :=
  match db.mysqlQuery server (ScoutComputer.execQuery statement) with
  | (true, db) => some ([], db)
  | (false, db) =>
      let (resptr, mysql) := db.mysql.useResult
      -- the result is left as it is
      if length = 0 then some ([], { db with mysql })
      else
        match resptr with
        | none => some ([], { db with mysql })
        | some res => do
            let vector ← fetchRows execCell length.toNat res.rows 0 []
            return (vector, { db with mysql := mysql.endOfRows.freeResult resptr })

end Database

/-! ## `DatabaseMan` -/

namespace DatabaseMan

variable {σ : Type}

/-- `clearTeams`. -/
def clearTeams (server : Server σ) (db : Database σ) : Option (Database σ) :=
  (db.execQuery server (bytes "delete from team") 1).map Prod.snd

/-- The body of the loop of `addTeams`. -/
def addTeam (server : Server σ) (db : Database σ) (temp2 : TeamDatapoint) :
    Option (Database σ) :=
  let teamNum := decimal temp2.teamNum.toInt
  (db.query server (bytes "insert into team(TeamId, TeamNumber, TeamDesc) values(?, ?, '?')")
    [some (cStr teamNum), some (cStr teamNum), some (cStr temp2.teamName)]).map Prod.snd

/-- `addTeams`. -/
def addTeams (server : Server σ) (teams : List TeamDatapoint) (db : Database σ) :
    Option (Database σ) := teams.foldlM (addTeam server) db

end DatabaseMan

end ScoutComputer
