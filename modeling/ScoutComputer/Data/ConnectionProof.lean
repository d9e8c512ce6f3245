import Mathlib.Algebra.Order.BigOperators.Group.List
import Mathlib.Algebra.Order.Ring.Nat
import ScoutComputer.Data.Connection

/-!
# Which calls leave the connection ready, and what table they return

`query` frees its result on every path. `execQuery` returns in front of the fetch loop
when no entries are asked for, and the result stays on the connection. Where both loops
run they differ in one thing: a NULL cell is shown by one and passed over by the other.

Both count the rows with an `int` and find the row to push to by that number. After `2^31`
rows it is negative, `at` throws, and nobody frees the result; but `execQuery` looks for the
row only when it has something to push.
-/

namespace ScoutComputer

namespace Database

variable {σ : Type}

/-! ## The two loops -/

theorem pushAt_nil (i : Int) (vector : Table) : pushAt i [] vector = some vector := rfl

/-- Pushing one after the other is pushing all. -/
theorem pushAt_append (i : Int) (entries entries' : List (List Byte)) (vector : Table) :
    (pushAt i entries vector).bind (pushAt i entries') = pushAt i (entries ++ entries') vector := by
  by_cases hnil : entries = []
  · subst hnil
    rfl
  · have happend : entries ++ entries' ≠ [] := fun h => hnil (List.append_eq_nil_iff.mp h).1
    unfold pushAt
    rw [if_neg hnil, if_neg happend]
    by_cases hi : 0 ≤ i ∧ i < vector.length
    · rw [if_pos hi, if_pos hi, Option.bind_some, List.length_modify, if_pos hi]
      by_cases hnil' : entries' = []
      · subst hnil'
        rw [if_pos rfl, List.append_nil]
      · rw [if_neg hnil', List.modify_modify_eq]
        refine congrArg some (congrArg (vector.modify i.toNat) (funext fun row => ?_))
        exact List.append_assoc row entries entries'
    · rw [if_neg hi, if_neg hi]
      rfl

/-- The inner loop pushes what its cells show, if there are as many as it reads. -/
theorem readCells_eq (shows : Cell → List (List Byte)) (i : Int) (row : List Cell) (n : Nat)
    (vector : Table) : readCells shows i row n vector =
      if n ≤ row.length then pushAt i ((row.take n).flatMap shows) vector else none := by
  induction row generalizing n vector with
  | nil =>
      cases n with
      | zero => rfl
      | succ n => rfl
  | cons cell row ih =>
      cases n with
      | zero => rfl
      | succ n =>
          rw [readCells, List.length_cons, List.take_succ_cons, List.flatMap_cons, ← pushAt_append]
          by_cases h : n ≤ row.length
          · rw [if_pos (by omega)]
            refine congrArg (pushAt i (shows cell) vector).bind (funext fun vector => ?_)
            rw [ih, if_pos h]
          · rw [if_neg (by omega)]
            refine Option.bind_eq_none_iff.mpr fun vector _ => ?_
            rw [ih, if_neg h]

theorem length_pushAt {i : Int} {entries : List (List Byte)} {vector vector' : Table}
    (h : pushAt i entries vector = some vector') : vector'.length = vector.length := by
  unfold pushAt at h
  split at h
  · cases h
    rfl
  · split at h
    · cases h
      exact List.length_modify ..
    · exact absurd h (by simp)

theorem pushAt_isSome_iff {i : Int} {entries : List (List Byte)} {vector : Table} :
    (∃ vector', pushAt i entries vector = some vector') ↔
      entries = [] ∨ 0 ≤ i ∧ i < vector.length := by
  unfold pushAt
  by_cases hnil : entries = []
  · simp [hnil]
  · by_cases hi : 0 ≤ i ∧ i < vector.length
    · simp [hnil, hi]
    · rw [if_neg hnil, if_neg hi]
      exact iff_of_false (by simp) (by simp [hnil, hi])

/-- The entries of the row that was pushed last. -/
theorem pushAt_last (entries : List (List Byte)) (vector : Table) :
    pushAt vector.length entries (vector ++ [[]]) = some (vector ++ [entries]) := by
  by_cases hnil : entries = []
  · subst hnil
    rfl
  · unfold pushAt
    rw [if_neg hnil, if_pos (by rw [List.length_append, List.length_singleton]; omega),
      Int.toNat_natCast]
    refine congrArg some (List.ext_getElem? fun k => ?_)
    rw [List.getElem?_modify]
    by_cases hk : vector.length = k
    · subst hk
      simp
    · simp only [if_neg hk]
      by_cases hlt : k < vector.length
      · rw [List.getElem?_append_left hlt, List.getElem?_append_left hlt]
        exact Option.map_id' ..
      · have hle : vector.length + 1 ≤ k := by omega
        rw [List.getElem?_eq_none (by simpa using hle), List.getElem?_eq_none (by simpa using hle)]
        rfl

/-- An `int` that counts on from a row number is the next row number, as an `int`. -/
theorem toInt32_succ (k : Nat) : toInt32 (toInt32 k + 1) = toInt32 ((k + 1 : Nat) : Int) := by
  unfold toInt32
  rw [Int.bmod_add_bmod, Int.natCast_succ]

theorem toInt32_of_lt {k : Nat} (h : k < 2 ^ 31) : toInt32 k = k :=
  Int.bmod_eq_of_le (by omega) (by omega)

theorem toInt32_le (k : Nat) : toInt32 k ≤ k := by
  unfold toInt32 Int.bmod
  dsimp only
  split <;> omega

/-- As long as the counter does not run over, each row has its own entries. -/
theorem fetchRows_of_width (shows : Cell → List (List Byte)) (vector : Table) {n : Nat}
    {rows : List (List Cell)} (h : ∀ row ∈ rows, n ≤ row.length)
    (hlen : vector.length + rows.length ≤ 2 ^ 31) :
    fetchRows shows n rows (toInt32 vector.length) vector =
      some (vector ++ rows.map fun row => (row.take n).flatMap shows) := by
  induction rows generalizing vector with
  | nil => rw [fetchRows, List.map_nil, List.append_nil]
  | cons row rows ih =>
      rw [List.length_cons] at hlen
      have hrow := h row List.mem_cons_self
      have hrest := ih (vector ++ [(row.take n).flatMap shows])
        (fun r hr => h r (List.mem_cons_of_mem row hr))
        (by rw [List.length_append, List.length_singleton]; omega)
      rw [List.length_append, List.length_singleton] at hrest
      rw [fetchRows, readCells_eq, if_pos hrow, toInt32_succ, toInt32_of_lt (by omega), pushAt_last]
      show fetchRows shows n rows (toInt32 ((vector.length + 1 : Nat) : Int)) _ = _
      rw [hrest, List.append_assoc]
      rfl

/-- Where the loop comes through: no row is too short, and one whose number is negative as an
`int` has nothing to show. -/
theorem fetchRows_isSome_iff (vector : Table) {shows : Cell → List (List Byte)} {n : Nat}
    {rows : List (List Cell)} :
    (∃ table, fetchRows shows n rows (toInt32 vector.length) vector = some table) ↔
      (∀ row ∈ rows, n ≤ row.length) ∧ ∀ r row, rows[r]? = some row →
        toInt32 ((vector.length + r : Nat) : Int) < 0 → (row.take n).flatMap shows = [] := by
  induction rows generalizing vector with
  | nil =>
      refine iff_of_true ⟨vector, rfl⟩ ⟨fun _ hr => absurd hr List.not_mem_nil, ?_⟩
      intro r row hr
      exact absurd hr (by simp)
  | cons row rows ih =>
      have hstart : (∃ vector', readCells shows (toInt32 vector.length) row n (vector ++ [[]]) =
          some vector') ↔ n ≤ row.length ∧
            (toInt32 vector.length < 0 → (row.take n).flatMap shows = []) := by
        rw [readCells_eq]
        by_cases hrow : n ≤ row.length
        · have hle := toInt32_le vector.length
          rw [if_pos hrow, pushAt_isSome_iff, List.length_append, List.length_singleton]
          refine ⟨fun h => ⟨hrow, fun hneg => h.resolve_right (by omega)⟩, fun h => ?_⟩
          by_cases hneg : toInt32 vector.length < 0
          · exact Or.inl (h.2 hneg)
          · exact Or.inr (by omega)
        · rw [if_neg hrow]
          exact iff_of_false (by simp) fun h => hrow h.1
      have hnext : ∀ {vector' : Table}, readCells shows (toInt32 vector.length) row n
          (vector ++ [[]]) = some vector' → vector'.length = vector.length + 1 := by
        intro vector' h
        rw [readCells_eq] at h
        split at h
        · rw [length_pushAt h, List.length_append, List.length_singleton]
        · exact absurd h (by simp)
      constructor
      · rintro ⟨table, h⟩
        rw [fetchRows] at h
        obtain ⟨vector', hcells, h⟩ := Option.bind_eq_some_iff.mp h
        obtain ⟨hrow, hnone⟩ := hstart.mp ⟨vector', hcells⟩
        rw [toInt32_succ, ← hnext hcells] at h
        obtain ⟨hrows, hrest⟩ := (ih _).mp ⟨table, h⟩
        refine ⟨fun r hr => ?_, fun r => ?_⟩
        · rcases List.mem_cons.mp hr with rfl | hr
          · exact hrow
          · exact hrows r hr
        · cases r with
          | zero =>
              intro row' hr
              cases hr
              exact hnone
          | succ r =>
              intro row' hr hneg
              refine hrest r row' hr ?_
              rw [hnext hcells, Nat.add_assoc, Nat.add_comm 1 r]
              exact hneg
      · rintro ⟨hrows, hnone⟩
        obtain ⟨vector', hcells⟩ := hstart.mpr ⟨hrows row List.mem_cons_self, hnone 0 row rfl⟩
        have hrest : ∃ table, fetchRows shows n rows (toInt32 vector'.length) vector' =
            some table := by
          refine (ih _).mpr ⟨fun r hr => hrows r (List.mem_cons_of_mem row hr), fun r row' hr hneg => ?_⟩
          rw [hnext hcells, Nat.add_assoc, Nat.add_comm 1 r] at hneg
          exact hnone (r + 1) row' hr hneg
        obtain ⟨table, htable⟩ := hrest
        refine ⟨table, ?_⟩
        rw [fetchRows, hcells, toInt32_succ, ← hnext hcells]
        exact htable

/-- A row that gets more entries makes the table larger by as many. -/
theorem length_flatten_modify (entries : List (List Byte)) (vector : Table) {k : Nat}
    (hk : k < vector.length) :
    (vector.modify k (· ++ entries)).flatten.length = vector.flatten.length + entries.length := by
  induction vector generalizing k with
  | nil => exact absurd hk (Nat.not_lt_zero k)
  | cons row vector ih =>
      cases k with
      | zero =>
          rw [List.modify_zero_cons]
          simp only [List.flatten_cons, List.length_append]
          omega
      | succ k =>
          have hrest := ih (Nat.lt_of_succ_lt_succ hk)
          rw [List.modify_succ_cons]
          simp only [List.flatten_cons, List.length_append]
          omega

theorem length_flatten_pushAt {i : Int} {entries : List (List Byte)} {vector vector' : Table}
    (h : pushAt i entries vector = some vector') :
    vector'.flatten.length = vector.flatten.length + entries.length := by
  unfold pushAt at h
  split at h
  · rename_i hnil
    cases h
    rw [hnil]
    rfl
  · split at h
    · rename_i hi
      cases h
      exact length_flatten_modify entries vector (by omega)
    · exact absurd h (by simp)

/-- Wherever they end up, all entries that are shown are in the table. -/
theorem length_flatten_fetchRows {shows : Cell → List (List Byte)} {n : Nat}
    {rows : List (List Cell)} {i : Int} {vector table : Table}
    (h : fetchRows shows n rows i vector = some table) : table.flatten.length =
      vector.flatten.length + (rows.map fun row => ((row.take n).flatMap shows).length).sum := by
  induction rows generalizing i vector with
  | nil =>
      cases h
      rfl
  | cons row rows ih =>
      rw [fetchRows] at h
      obtain ⟨vector', hcells, h⟩ := Option.bind_eq_some_iff.mp h
      rw [readCells_eq] at hcells
      split at hcells
      · have hpush := length_flatten_pushAt hcells
        have hrest := ih h
        rw [List.flatten_append, List.length_append] at hpush
        rw [List.map_cons, List.sum_cons, hrest, hpush, Nat.add_assoc]
        rfl
      · exact absurd hcells (by simp)

/-- What `query` returns for a result its counter is large enough for. -/
theorem fetchRows_query {res : ResultSet} (h : res.rows.length ≤ 2 ^ 31) :
    fetchRows queryCell res.columns res.rows 0 [] =
      some (res.rows.map fun row => row.map shown) := by
  have hwidth : ∀ row ∈ res.rows, res.columns ≤ row.length :=
    fun row hr => Nat.le_of_eq (res.width row hr).symm
  have hrows := fetchRows_of_width queryCell [] hwidth
    (by rw [List.length_nil]; omega)
  refine hrows.trans (congrArg some (List.map_congr_left ?_))
  intro row hr
  rw [← res.width row hr, List.take_length]
  exact (List.map_eq_flatMap ..).symm

/-- For a larger one `at` throws, as `query` shows every cell. -/
theorem fetchRows_query_isSome_iff {res : ResultSet} :
    (∃ table, fetchRows queryCell res.columns res.rows 0 [] = some table) ↔
      res.rows.length ≤ 2 ^ 31 := by
  refine ⟨fun h => ?_, fun h => ⟨_, fetchRows_query h⟩⟩
  by_contra hlong
  have hnone := (fetchRows_isSome_iff []).mp h
  have hlast : 2 ^ 31 < res.rows.length := by omega
  have hempty := hnone.2 (2 ^ 31) _ (List.getElem?_eq_getElem hlast) (by decide)
  have hwidth := res.width _ (List.getElem_mem hlast)
  have hpos := res.hasColumns
  rw [← hwidth, List.take_length] at hempty
  rw [← hwidth] at hpos
  obtain ⟨cell, hcell⟩ := List.exists_mem_of_length_pos hpos
  exact absurd (List.flatMap_eq_nil_iff.mp hempty cell hcell) (by simp [queryCell])

/-! ## One call on a ready connection -/

theorem mysqlQuery_ready {server : Server σ} {db : Database σ} {text : List Byte}
    (h : db.mysql.status = .ready) :
    db.mysqlQuery server text = ((Mysql.answered (server db.tables text).2).1,
      ⟨(Mysql.answered (server db.tables text).2).2, (server db.tables text).1⟩) := by
  unfold mysqlQuery
  rw [if_neg (fun hn => hn h)]

/-- A call of one of the two routines. -/
inductive Call where
  | query (queryStatement : List Byte) (queryArgs : List (Option (List Byte)))
  | execQuery (statement : List Byte) (length : Int)

namespace Call

/-- The text the call gives to `mysql_query`, where building it is defined. -/
def text : Call → Option (List Byte)
  | query queryStatement queryArgs => ScoutComputer.query queryStatement queryArgs
  | execQuery statement _ => some (ScoutComputer.execQuery statement)

def run (server : Server σ) (db : Database σ) : Call → Option (Table × Database σ)
  | query queryStatement queryArgs => db.query server queryStatement queryArgs
  | execQuery statement length => db.execQuery server statement length

/-- The loop over the rows. -/
def fetch : Call → ResultSet → Option Table
  | query _ _, res => fetchRows queryCell res.columns res.rows 0 []
  | execQuery _ length, res => fetchRows execCell length.toNat res.rows 0 []

/-- The call returns in front of the loop. -/
def skips : Call → Bool
  | query _ _ => false
  | execQuery _ length => length == 0

/-- The table a call returns for an answer, and what it leaves the connection in. -/
def outcome (c : Call) : Reply → Option (Table × Mysql)
  | .error => some ([], ⟨.ready, none⟩)
  | .done => some ([], ⟨.ready, none⟩)
  | .columns none => some ([], ⟨.getResult, some none⟩)
  | .columns (some res) =>
      if c.skips then some ([], ⟨.useResult, none⟩)
      else (c.fetch res).map fun vector => (vector, ⟨.ready, none⟩)

theorem query_ready {server : Server σ} {db : Database σ} {queryStatement text : List Byte}
    {queryArgs : List (Option (List Byte))} (h : db.mysql.status = .ready)
    (ht : ScoutComputer.query queryStatement queryArgs = some text) :
    db.query server queryStatement queryArgs =
      ((query queryStatement queryArgs).outcome (server db.tables text).2).map
        fun r => (r.1, ⟨r.2, (server db.tables text).1⟩) := by
  unfold Database.query
  simp only [ht, Option.bind_eq_bind, Option.bind_some, mysqlQuery_ready h]
  rcases (server db.tables text).2 with _ | _ | _ | res
  · rfl
  · rfl
  · rfl
  · simp only [Mysql.answered, Mysql.useResult, ne_eq, not_true_eq_false, if_false, outcome,
      skips, fetch]
    cases fetchRows queryCell res.columns res.rows 0 [] with
    | none => rfl
    | some vector => rfl

theorem execQuery_ready {server : Server σ} {db : Database σ} {statement : List Byte}
    {length : Int} (h : db.mysql.status = .ready) :
    db.execQuery server statement length =
      ((execQuery statement length).outcome
        (server db.tables (ScoutComputer.execQuery statement)).2).map
        fun r => (r.1, ⟨r.2, (server db.tables (ScoutComputer.execQuery statement)).1⟩) := by
  unfold Database.execQuery
  simp only [mysqlQuery_ready h]
  rcases (server db.tables (ScoutComputer.execQuery statement)).2 with _ | _ | _ | res
  · rfl
  · simp [Mysql.answered, Mysql.useResult, outcome]
  · simp [Mysql.answered, Mysql.useResult, outcome]
  · simp only [Mysql.answered, Mysql.useResult, ne_eq, not_true_eq_false, if_false, outcome,
      skips, fetch, beq_iff_eq]
    by_cases hl : length = 0
    · rw [if_pos hl, if_pos hl]
      rfl
    · rw [if_neg hl, if_neg hl]
      cases fetchRows execCell length.toNat res.rows 0 [] with
      | none => rfl
      | some vector => rfl

/-- **One call** on a ready connection. -/
theorem run_ready {server : Server σ} {db : Database σ} (c : Call)
    (h : db.mysql.status = .ready) :
    c.run server db = c.text.bind fun text =>
      (c.outcome (server db.tables text).2).map fun r => (r.1, ⟨r.2, (server db.tables text).1⟩) := by
  cases c with
  | query queryStatement queryArgs =>
      cases ht : ScoutComputer.query queryStatement queryArgs with
      | none => simp [run, text, Database.query, ht]
      | some t => simpa [run, text, ht] using query_ready h ht
  | execQuery statement length => exact execQuery_ready h

/--
The call and what comes of its statement suit each other: if there are columns, there is
memory for the result, and its rows can be counted with an `int`; `execQuery` is asked for
some of the columns, and for no more than there are. A row `execQuery` shows nothing of it
need not find by its number.
-/
def suits (c : Call) : Reply → Prop
  | .error => True
  | .done => True
  | .columns none => False
  | .columns (some res) =>
      match c with
      | query _ _ => res.rows.length ≤ 2 ^ 31
      | execQuery _ length => length ≠ 0 ∧ (res.rows = [] ∨ length ≤ res.columns) ∧
          ∀ (r : Nat) row, res.rows[r]? = some row → toInt32 r < 0 →
            ∀ cell ∈ row.take length.toNat, cell = none

/-- A row of NULL cells shows nothing in `execQuery`. -/
theorem flatMap_execCell_eq_nil {row : List Cell} :
    row.flatMap execCell = [] ↔ ∀ cell ∈ row, cell = none := by
  rw [List.flatMap_eq_nil_iff]
  refine forall₂_congr fun cell _ => ?_
  cases cell with
  | none => exact iff_of_true rfl rfl
  | some text => simp [execCell]

/-- The loop stays within the rows, and `at` finds its row. -/
theorem fetch_isSome_iff (statement : List Byte) {res : ResultSet} {length : Int} :
    (∃ vector, (execQuery statement length).fetch res = some vector) ↔
      (res.rows = [] ∨ length ≤ res.columns) ∧ ∀ (r : Nat) row, res.rows[r]? = some row →
        toInt32 r < 0 → ∀ cell ∈ row.take length.toNat, cell = none := by
  have hwidth : (∀ row ∈ res.rows, length.toNat ≤ row.length) ↔
      res.rows = [] ∨ length ≤ res.columns := by
    constructor
    · intro h
      cases hr : res.rows with
      | nil => exact Or.inl rfl
      | cons row rows =>
          have hmem : row ∈ res.rows := by rw [hr]; exact List.mem_cons_self
          have hlen := h row hmem
          have hcols := res.width row hmem
          exact Or.inr (by omega)
    · intro h row hr
      have hcols := res.width row hr
      rcases h with h | h
      · rw [h] at hr
        exact absurd hr List.not_mem_nil
      · omega
  refine (fetchRows_isSome_iff []).trans (and_congr hwidth ?_)
  refine forall₃_congr fun r row _ => ?_
  rw [flatMap_execCell_eq_nil, List.length_nil, Nat.zero_add]

theorem outcome_ready_iff (c : Call) (reply : Reply) :
    (∃ vector, c.outcome reply = some (vector, ⟨.ready, none⟩)) ↔ c.suits reply := by
  rcases reply with _ | _ | _ | res
  · simp [outcome, suits]
  · simp [outcome, suits]
  · simp [outcome, suits]
  · cases c with
    | query queryStatement queryArgs =>
        rw [suits, ← fetchRows_query_isSome_iff]
        simp [outcome, skips, fetch]
    | execQuery statement length =>
        rw [suits, ← fetch_isSome_iff statement]
        by_cases hl : length = 0
        · simp [outcome, skips, hl]
        · simp [outcome, skips, hl]

/-- A connection that a call leaves ready has no result left on it either. -/
theorem outcome_of_ready {c : Call} {reply : Reply} {vector : Table} {m : Mysql}
    (h : c.outcome reply = some (vector, m)) (hm : m.status = .ready) : m = ⟨.ready, none⟩ := by
  rcases reply with _ | _ | _ | res
  · cases h; rfl
  · cases h; rfl
  · cases h; exact absurd hm (by simp)
  · rw [outcome] at h
    split at h
    · cases h
      exact absurd hm (by simp)
    · obtain ⟨v, _, hv⟩ := Option.map_eq_some_iff.mp h
      cases hv
      rfl

end Call

/-! ## Sequences of calls -/

/-- The connection is ready after each of the calls. -/
def readyAfterEach (server : Server σ) : List Call → Database σ → Prop
  | [], _ => True
  | c :: calls, db => ∃ vector db', c.run server db = some (vector, db') ∧
      db'.mysql.status = .ready ∧ readyAfterEach server calls db'

/-- Every call has a text, and suits what the server answers to it. -/
def allSuit (server : Server σ) : List Call → σ → Prop
  | [], _ => True
  | c :: calls, tables => ∃ text, c.text = some text ∧ c.suits (server tables text).2 ∧
      allSuit server calls (server tables text).1

/--
**The connection stays usable** as long as `execQuery` is not asked for zero entries of a
result, or for more than its rows have, and there is memory for each result.
-/
theorem calls_ready_iff (server : Server σ) (calls : List Call) (tables : σ) :
    readyAfterEach server calls (connect tables) ↔ allSuit server calls tables := by
  induction calls generalizing tables with
  | nil => exact Iff.rfl
  | cons c calls ih =>
      unfold readyAfterEach allSuit
      rw [c.run_ready rfl]
      constructor
      · intro ⟨vector, db', hrun, hready, hrest⟩
        obtain ⟨text, ht, hrun⟩ := Option.bind_eq_some_iff.mp hrun
        obtain ⟨⟨v, m⟩, hout, hdb⟩ := Option.map_eq_some_iff.mp hrun
        cases hdb
        have hm : m = ⟨.ready, none⟩ := Call.outcome_of_ready hout hready
        subst hm
        exact ⟨text, ht, (c.outcome_ready_iff _).mp ⟨_, hout⟩, (ih _).mp hrest⟩
      · intro ⟨text, ht, hsuits, hrest⟩
        obtain ⟨vector, hout⟩ := (c.outcome_ready_iff _).mpr hsuits
        refine ⟨vector, connect (server tables text).1, ?_, rfl, (ih _).mpr hrest⟩
        rw [ht, Option.bind_some]
        unfold connect
        rw [hout]
        rfl

/-- A server with one table of one column. -/
def oneColumn : Server Unit := fun tables _ =>
  (tables, .columns (some ⟨1, [[some (bytes "1")]], by decide, by decide⟩))

/-- Asking for nothing of a result leaves it on the connection. -/
theorem calls_ready_select_nothing :
    ¬ readyAfterEach oneColumn [.execQuery (bytes "select 1") 0, .execQuery (bytes "select 1") 1]
      (connect ()) := by
  intro ⟨vector, db', hrun, hready, _⟩
  cases hrun
  exact absurd hready (by decide)

/-! ## Cells -/

/-- What a result shows at a cell. -/
def cellText (cell : Cell) : List Byte := cell.getD (bytes "NULL")

theorem flatMap_execCell_length (row : List Cell) :
    (row.flatMap execCell).length ≤ row.length ∧
      ((row.flatMap execCell).length = row.length → none ∉ row) := by
  induction row with
  | nil => exact ⟨Nat.le_refl 0, fun _ => List.not_mem_nil⟩
  | cons cell row ih =>
      obtain ⟨hle, hnone⟩ := ih
      rw [List.flatMap_cons, List.length_append, List.length_cons]
      cases cell with
      | none =>
          have hzero : (execCell none).length = 0 := rfl
          exact ⟨by omega, fun h => absurd h (by omega)⟩
      | some text =>
          have hone : (execCell (some text)).length = 1 := rfl
          refine ⟨by omega, fun h => ?_⟩
          have hrest := hnone (by omega)
          intro hmem
          rcases List.mem_cons.mp hmem with hmem | hmem
          · exact absurd hmem (by simp)
          · exact hrest hmem

/-- Without NULL cells both bodies push the same. -/
theorem flatMap_execCell {row : List Cell} (h : none ∉ row) :
    row.flatMap execCell = row.map shown := by
  induction row with
  | nil => rfl
  | cons cell row ih =>
      have hrest := ih fun hr => h (List.mem_cons_of_mem cell hr)
      cases cell with
      | none => exact absurd List.mem_cons_self h
      | some text =>
          rw [List.flatMap_cons, List.map_cons, hrest]
          rfl

theorem flatMap_execCell_eq_shown {row : List Cell} :
    row.flatMap execCell = row.map shown ↔ none ∉ row := by
  refine ⟨fun h => (flatMap_execCell_length row).2 ?_, flatMap_execCell⟩
  rw [h, List.length_map]

theorem shown_eq_cellText {cell : Cell} :
    shown cell = cellText cell ↔ ∀ text, cell = some text → 0 ∉ text := by
  cases cell with
  | none => simp [shown, cellText]
  | some text =>
      refine ⟨fun h t ht => ?_, fun h => cStr_eq_self (h text rfl)⟩
      cases ht
      have hcut : cStr text = text := h
      rw [← hcut]
      exact notMem_cStr text

/-- The entries of a row are its cells exactly when none of these is NULL or would be cut. -/
theorem flatMap_execCell_eq_cellText {row : List Cell} :
    row.flatMap execCell = row.map cellText ↔
      ∀ cell ∈ row, ∃ text, cell = some text ∧ 0 ∉ text := by
  constructor
  · intro h
    have hnone : none ∉ row := by
      refine (flatMap_execCell_length row).2 ?_
      rw [h, List.length_map]
    rw [flatMap_execCell hnone] at h
    intro cell hc
    cases cell with
    | none => exact absurd hc hnone
    | some text => exact ⟨text, rfl, shown_eq_cellText.mp (List.map_inj_left.mp h _ hc) text rfl⟩
  · intro h
    have hnone : none ∉ row := by
      intro hc
      obtain ⟨text, ht, _⟩ := h none hc
      exact absurd ht (by simp)
    rw [flatMap_execCell hnone]
    refine List.map_congr_left fun cell hc => shown_eq_cellText.mpr fun t ht => ?_
    obtain ⟨text, htext, h0⟩ := h cell hc
    rw [ht] at htext
    cases htext
    exact h0

theorem query_plain {statement : List Byte} (h : 63 ∉ statement) :
    ScoutComputer.query statement [] = some (ScoutComputer.execQuery statement) := by
  unfold ScoutComputer.query ScoutComputer.execQuery
  have hexp : expandQuery (statement ++ []) [] = _ := expandQuery_append h
  rw [List.append_nil] at hexp
  rw [hexp]
  simp [expandQuery]

/-- Without NULL in its cells, a row has something to show. -/
theorem flatMap_execCell_ne_nil {row : List Cell} (hpos : 0 < row.length) (h : none ∉ row) :
    row.flatMap execCell ≠ [] := by
  obtain ⟨cell, hcell⟩ := List.exists_mem_of_length_pos hpos
  intro hnil
  have hnone := Call.flatMap_execCell_eq_nil.mp hnil cell hcell
  rw [hnone] at hcell
  exact h hcell

section
variable {server : Server σ} {db : Database σ} {statement : List Byte} {res : ResultSet} {n : Nat}

/-- What `query` returns, on a connection that is ready. -/
theorem query_eq {text : List Byte} (hready : db.mysql.status = .ready)
    (htext : ScoutComputer.query statement [] = some text)
    (hres : (server db.tables text).2 = .columns (some res)) :
    (db.query server statement []).map Prod.fst =
      fetchRows queryCell res.columns res.rows 0 [] := by
  have hfetch : (Call.query statement []).fetch res =
    fetchRows queryCell res.columns res.rows 0 [] := rfl
  rw [Call.query_ready hready htext, hres, Call.outcome, Call.skips, if_neg (by simp), hfetch]
  cases fetchRows queryCell res.columns res.rows 0 [] with
  | none => rfl
  | some vector => rfl

/-- What `execQuery` returns, on a connection that is ready. -/
theorem execQuery_eq (hready : db.mysql.status = .ready)
    (hres : (server db.tables (ScoutComputer.execQuery statement)).2 = .columns (some res))
    (hpos : 1 ≤ n) : (db.execQuery server statement n).map Prod.fst =
      fetchRows execCell n res.rows 0 [] := by
  have hskips : (Call.execQuery statement n).skips = false := by
    simp only [Call.skips, beq_eq_false_iff_ne, ne_eq]
    omega
  have hfetch : (Call.execQuery statement n).fetch res = fetchRows execCell n res.rows 0 [] := rfl
  rw [Call.execQuery_ready hready, hres, Call.outcome, hskips, hfetch]
  cases fetchRows execCell n res.rows 0 [] with
  | none => rfl
  | some vector => rfl

/-- As long as the rows can be counted, each has its own entries. -/
theorem fetchRows_exec_eq (hn : n ≤ res.columns) (hlen : res.rows.length ≤ 2 ^ 31) :
    fetchRows execCell n res.rows 0 [] =
      some (res.rows.map fun row => (row.take n).flatMap execCell) :=
  fetchRows_of_width _ [] (fun row hr => (res.width row hr).symm ▸ hn)
    (by rw [List.length_nil]; omega)

/-- With more than `2^31` rows, `at` throws unless some row asked for has a NULL cell. -/
theorem length_of_fetchRows_exec (hpos : 1 ≤ n) (hn : n ≤ res.columns)
    (h : ∃ vector, fetchRows execCell n res.rows 0 [] = some vector)
    (hnone : ∀ row ∈ res.rows, none ∉ row.take n) : res.rows.length ≤ 2 ^ 31 := by
  by_contra hlong
  have hlast : 2 ^ 31 < res.rows.length := by omega
  have hmem := List.getElem_mem hlast
  have hempty := ((fetchRows_isSome_iff []).mp h).2 (2 ^ 31) _
    (List.getElem?_eq_getElem hlast) (by decide)
  refine flatMap_execCell_ne_nil ?_ (hnone _ hmem) hempty
  rw [List.length_take, res.width _ hmem]
  omega

end

/--
**`execQuery` shows a result as it is** exactly when its rows can be counted with an `int` and
none of the cells it is asked for is NULL or has a NUL byte in it, and it agrees with `query`
exactly when they can be counted and no cell is NULL.
-/
theorem execQuery_table_iff {server : Server σ} {db : Database σ} {statement : List Byte}
    {res : ResultSet} {n : Nat} (hready : db.mysql.status = .ready)
    (hres : (server db.tables (ScoutComputer.execQuery statement)).2 = .columns (some res))
    (hpos : 1 ≤ n) (hn : n ≤ res.columns) :
    ((db.execQuery server statement n).map Prod.fst =
        some (res.rows.map fun row => (row.take n).map cellText) ↔
      res.rows.length ≤ 2 ^ 31 ∧
        ∀ row ∈ res.rows, ∀ cell ∈ row.take n, ∃ text, cell = some text ∧ 0 ∉ text) ∧
    (n = res.columns → 63 ∉ statement →
      ((∃ vector, (db.query server statement []).map Prod.fst = some vector ∧
          (db.execQuery server statement n).map Prod.fst = some vector) ↔
        res.rows.length ≤ 2 ^ 31 ∧ ∀ row ∈ res.rows, none ∉ row)) := by
  have hexec := execQuery_eq hready hres hpos
  have hcut : ∀ row ∈ res.rows, (row.take n).length = n := by
    intro row hr
    rw [List.length_take, res.width row hr]
    exact Nat.min_eq_left hn
  constructor
  · rw [hexec]
    constructor
    · intro h
      -- as many entries as cells, so none of them is NULL
      have hnone : ∀ row ∈ res.rows, none ∉ row.take n := by
        have htotal := length_flatten_fetchRows h
        rw [List.flatten_nil, List.length_nil, Nat.zero_add, List.length_flatten,
          List.map_map] at htotal
        intro row hr hnull
        refine Nat.ne_of_lt (List.sum_lt_sum _ _ (fun row hr => ?_) ⟨row, hr, ?_⟩) htotal.symm
        · rw [Function.comp_apply, List.length_map]
          exact (flatMap_execCell_length (row.take n)).1
        · obtain ⟨hle, hall⟩ := flatMap_execCell_length (row.take n)
          rw [Function.comp_apply, List.length_map]
          exact Nat.lt_of_le_of_ne hle fun heq => hall heq hnull
      have hlen := length_of_fetchRows_exec hpos hn ⟨_, h⟩ hnone
      rw [fetchRows_exec_eq hn hlen, Option.some.injEq, List.map_inj_left] at h
      exact ⟨hlen, fun row hr => flatMap_execCell_eq_cellText.mp (h row hr)⟩
    · rintro ⟨hlen, h⟩
      rw [fetchRows_exec_eq hn hlen]
      refine congrArg some (List.map_congr_left fun row hr => ?_)
      exact flatMap_execCell_eq_cellText.mpr (h row hr)
  · intro hcols hmark
    have hrow : ∀ row ∈ res.rows, row.take n = row := by
      intro row hr
      rw [hcols, ← res.width row hr, List.take_length]
    have hquery := query_eq hready (query_plain hmark) hres
    rw [hquery, hexec]
    constructor
    · rintro ⟨vector, hq, he⟩
      have hlen := fetchRows_query_isSome_iff.mp ⟨vector, hq⟩
      rw [← he, fetchRows_query hlen, fetchRows_exec_eq hn hlen, Option.some.injEq,
        List.map_inj_left] at hq
      refine ⟨hlen, fun row hr => ?_⟩
      have heq := hq row hr
      rw [hrow row hr] at heq
      exact flatMap_execCell_eq_shown.mp heq.symm
    · rintro ⟨hlen, h⟩
      refine ⟨_, fetchRows_query hlen, ?_⟩
      rw [fetchRows_exec_eq hn hlen]
      refine congrArg some (List.map_congr_left fun row hr => ?_)
      rw [hrow row hr]
      exact flatMap_execCell_eq_shown.mpr (h row hr)

/-- One row of `matchtransaction` whose timestamp is NULL. -/
def noTimestamp : ResultSet :=
  ⟨3, [[some (bytes "12"), none, some (bytes "1138")]], by decide, by decide⟩

def noTimestampServer : Server Unit := fun tables _ => (tables, .columns (some noTimestamp))

/-- Two rows of a table in which everything is there. -/
def twoTeams : ResultSet :=
  ⟨2, [[some (bytes "1138"), some (bytes "Eagles")], [some (bytes "254"), some (bytes "Poofs")]],
    by decide, by decide⟩

def twoTeamsServer : Server Unit := fun tables _ => (tables, .columns (some twoTeams))

theorem execQuery_table_iff_two :
    (((connect ()).execQuery twoTeamsServer (bytes "select * from team") (2 : Nat)).map Prod.fst =
        some (twoTeams.rows.map fun row => (row.take 2).map cellText) ↔
      twoTeams.rows.length ≤ 2 ^ 31 ∧
        ∀ row ∈ twoTeams.rows, ∀ cell ∈ row.take 2, ∃ text, cell = some text ∧ 0 ∉ text) ∧
    (2 = twoTeams.columns → 63 ∉ bytes "select * from team" →
      ((∃ vector, ((connect ()).query twoTeamsServer (bytes "select * from team") []).map Prod.fst =
            some vector ∧ ((connect ()).execQuery twoTeamsServer (bytes "select * from team")
              (2 : Nat)).map Prod.fst = some vector) ↔
        twoTeams.rows.length ≤ 2 ^ 31 ∧ ∀ row ∈ twoTeams.rows, none ∉ row)) :=
  execQuery_table_iff rfl rfl (by decide) (by decide)

/-- The entry behind a NULL cell takes its place. -/
theorem execQuery_table_shifts :
    ∃ vector db', (connect ()).execQuery noTimestampServer
        (bytes "select * from matchtransaction") 3 = some (vector, db') ∧
      vector ≠ noTimestamp.rows.map (fun row => row.map cellText) ∧
      ((connect ()).query noTimestampServer (bytes "select * from matchtransaction") []).map
        Prod.fst ≠ some vector := by
  refine ⟨[[bytes "12", bytes "1138"]], connect (), rfl, ?_, ?_⟩
  · decide +kernel
  · decide +kernel

end Database

end ScoutComputer
