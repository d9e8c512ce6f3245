import ScoutComputer.Data.ConnectionProof
import ScoutComputer.Data.InsertTeamProof
import ScoutComputer.Data.JsonReaders
import ScoutComputer.Lib.Lists

/-!
# What the rest button leaves of the team table

The table is deleted before the first request is made, so what it holds afterwards is
what the 23 responses yield, in their order, and nothing else.
-/

namespace ScoutComputer

open SqlText Database JsonParser LongestPrefix

/-! ## The teams of a response -/

/-- The elements of a response. A body that does not parse counts as the document `null`. -/
def elementsOf (parse : List Byte → Option Json) (request : TbaRequest) : List Json :=
  ((parse (makeTBAReq request)).getD .null).elements

/--
A response yields a team: its document has an element that decodes to the team, behind
others that decode as well.
-/
def Yields (parse : List Byte → Option Json) (request : TbaRequest) (team : TeamDatapoint) :
    Prop :=
  ∃ pre e post t, elementsOf parse request = pre ++ e :: post ∧
    (∀ x ∈ pre, decodeTeam x ≠ none) ∧ decodeTeam e = some t ∧
    t.toTeamDatapoint = team

theorem mem_teamsOf {parse : List Byte → Option Json} {request : TbaRequest}
    {team : TeamDatapoint} : team ∈ teamsOf parse request ↔ Yields parse request team := by
  unfold teamsOf Yields
  rw [parseTeams_decoded, List.mem_map]
  constructor
  · rintro ⟨t, ht, hteam⟩
    obtain ⟨pre, e, post, hes, hpre, he⟩ := LongestPrefix.mem_decoded.mp ht
    exact ⟨pre, e, post, t, hes, hpre, he, hteam⟩
  · rintro ⟨pre, e, post, t, hes, hpre, he, hteam⟩
    exact ⟨t, LongestPrefix.mem_decoded.mpr ⟨pre, e, post, hes, hpre, he⟩, hteam⟩

/-! ## One team -/

/-- A row of the team table: the number, which is stored twice, and the name. -/
abbrev Row : Type := Int × List Byte

/-- The row a team stands for. -/
def rowOf (team : TeamDatapoint) : Row := (team.teamNum.toInt, cStr team.teamName)

/--
The row that the statement for a team inserts: its name is cut to as many bytes as the
escaped length counts. `none` where the statement cannot be built.
-/
def insertedRow (team : TeamDatapoint) : Option Row :=
  let name := cStr team.teamName
  (escapedArg name).map fun _ =>
    (team.teamNum.toInt, name.take (toULong (toInt32 name.length)))

/-- The statement of a team reads as an INSERT of its row. -/
theorem reads_insertedRow (version : Nat) {team : TeamDatapoint} {row : Row}
    (h : insertedRow team = some row) :
    ∃ text, insertTeam team = some text ∧ ReadsAsTeam version text row.1 row.2 := by
  obtain ⟨n, name⟩ := team
  unfold insertedRow at h
  dsimp only at h
  obtain ⟨u, hu, hrow⟩ := Option.map_eq_some_iff.mp h
  subst hrow
  rw [insertTeam_eq, hu]
  refine ⟨_, rfl, ?_⟩
  rw [escapedArg_def] at hu
  dsimp only at hu
  split at hu
  · exact absurd hu (by simp)
  · rw [← Option.some.inj hu]
    dsimp only
    exact reads_iff_of_escaped.mpr rfl

theorem insertTeam_of_none {team : TeamDatapoint} (h : insertedRow team = none) :
    insertTeam team = none := by
  unfold insertedRow at h
  dsimp only at h
  rw [insertTeam_eq, Option.map_eq_none_iff]
  exact Option.map_eq_none_iff.mp h

/-! ## The server -/

/--
A server of some version with a table of teams: DELETE leaves no row, and an INSERT of one
row adds it. Neither has a result.
-/
structure ServesTeams (version : Nat) (server : Server (List Row)) : Prop where
  delete : ∀ table, server table (bytes "delete from team") = ([], .done)
  insert : ∀ table text n name, ReadsAsTeam version text n name →
    server table text = (table ++ [(n, name)], .done)

section
variable {version : Nat} {server : Server (List Row)}

theorem clearTeams_eq (h : ServesTeams version server) (table : List Row) :
    DatabaseMan.clearTeams server (connect table) = some (connect []) := by
  have htext : ScoutComputer.execQuery (bytes "delete from team") = bytes "delete from team" := by
    decide +kernel
  unfold DatabaseMan.clearTeams
  rw [Call.execQuery_ready rfl, htext]
  unfold connect
  rw [h.delete]
  rfl

theorem addTeam_eq (h : ServesTeams version server) (table : List Row) (team : TeamDatapoint) :
    DatabaseMan.addTeam server (connect table) team =
      (insertedRow team).map fun row => connect (table ++ [row]) := by
  unfold DatabaseMan.addTeam
  cases hrow : insertedRow team with
  | none =>
      have htext := insertTeam_of_none hrow
      unfold insertTeam at htext
      dsimp only at htext ⊢
      rw [Database.query, htext]
      rfl
  | some row =>
      obtain ⟨text, htext, hreads⟩ := reads_insertedRow version hrow
      unfold insertTeam at htext
      dsimp only at htext ⊢
      rw [Call.query_ready rfl htext]
      unfold connect
      rw [h.insert _ _ _ _ hreads]
      rfl

/-- Teams are inserted one after the other. -/
theorem addTeams_eq (h : ServesTeams version server) (teams : List TeamDatapoint) (table : List Row) :
    DatabaseMan.addTeams server teams (connect table) =
      (teams.mapM insertedRow).map fun rows => connect (table ++ rows) := by
  unfold DatabaseMan.addTeams
  induction teams generalizing table with
  | nil => simp
  | cons team teams ih =>
      rw [List.foldlM_cons, addTeam_eq h, List.mapM_cons]
      cases insertedRow team with
      | none => rfl
      | some row =>
          rw [Option.map_some, Option.bind_eq_bind, Option.bind_some, ih]
          cases teams.mapM insertedRow with
          | none => rfl
          | some rows => simp

variable {parse : List Byte → Option Json} {requests : Nat → TbaRequest}

/-- What the responses to some pages yield, in order. -/
def yielded (parse : List Byte → Option Json) (requests : Nat → TbaRequest) (pages : List Nat) :
    List TeamDatapoint := pages.flatMap fun i => teamsOf parse (requests i)

theorem getPages_eq (h : ServesTeams version server) (pages : List Nat) (table : List Row) :
    pages.foldlM (fun db i => getteamdata server parse (requests i) db) (connect table) =
      ((yielded parse requests pages).mapM insertedRow).map
        fun rows => connect (table ++ rows) := by
  induction pages generalizing table with
  | nil => simp [yielded]
  | cons i pages ih =>
      have hcons : yielded parse requests (i :: pages) =
          teamsOf parse (requests i) ++ yielded parse requests pages := rfl
      rw [List.foldlM_cons, getteamdata, addTeams_eq h, hcons, List.mapM_append]
      cases (teamsOf parse (requests i)).mapM insertedRow with
      | none => rfl
      | some rows =>
          rw [Option.map_some, Option.bind_eq_bind, Option.bind_some, ih]
          cases (yielded parse requests pages).mapM insertedRow with
          | none => rfl
          | some rows' => simp

/-- **The table afterwards** is what the responses yield. -/
theorem restPressed_eq (h : ServesTeams version server) (table : List Row) :
    restPressed server parse requests (connect table) =
      ((yielded parse requests (List.range 23)).mapM insertedRow).map connect := by
  unfold restPressed
  rw [clearTeams_eq h, Option.bind_eq_bind, Option.bind_some, getPages_eq h]
  simp

theorem mem_yielded {team : TeamDatapoint} :
    team ∈ yielded parse requests (List.range 23) ↔
      ∃ i < 23, Yields parse (requests i) team := by
  unfold yielded
  rw [List.mem_flatMap]
  simp only [List.mem_range, mem_teamsOf]

end

/-- The prefixes that decode are what the responses yield. -/
theorem exists_prefixes_iff {parse : List Byte → Option Json} {requests : Nat → TbaRequest}
    {rows : List (Option Row)} :
    (∃ teams : Nat → List TeamRecord,
      (∀ i < 23, IsLongest TeamReads (elementsOf parse (requests i)) (teams i)) ∧
      ((List.range 23).flatMap teams).map (fun t => insertedRow t.toTeamDatapoint) = rows) ↔
    (yielded parse requests (List.range 23)).map insertedRow = rows := by
  have hdecode : ∀ e t, decodeTeam e = some t ↔ TeamReads e t :=
    fun _ _ => decodeTeam_eq_some
  have hmap : ∀ (teams : Nat → List TeamRecord) (pages : List Nat),
      (∀ i ∈ pages, teams i = decoded decodeTeam (elementsOf parse (requests i))) →
      (pages.flatMap teams).map (fun t => insertedRow t.toTeamDatapoint) =
        (yielded parse requests pages).map insertedRow := by
    intro teams pages hteams
    unfold yielded
    rw [List.map_flatMap, List.map_flatMap]
    refine List.flatMap_congr fun i hi => ?_
    have hes : (ofText parse (makeTBAReq (requests i))).data.elements =
        elementsOf parse (requests i) := rfl
    rw [hteams i hi, teamsOf, parseTeams_decoded, hes, List.map_map, Function.comp_def]
  constructor
  · rintro ⟨teams, hlong, hrows⟩
    have hpages : ∀ i ∈ List.range 23,
        teams i = decoded decodeTeam (elementsOf parse (requests i)) :=
      fun i hi => (hlong i (List.mem_range.mp hi)).eq_decoded hdecode
    exact (hmap teams _ hpages).symm.trans hrows
  · intro hrows
    refine ⟨fun i => decoded decodeTeam (elementsOf parse (requests i)), ?_, ?_⟩
    · exact fun i _ => isLongest_decoded hdecode _
    · exact (hmap _ _ fun _ _ => rfl).trans hrows

/--
**The refresh keeps its promise** exactly when every listed team comes with some
response, behind elements that all decode, or when the table held just what the responses
yield from the start.
-/
theorem restPressed_iff {version : Nat} {server : Server (List Row)}
    (h : ServesTeams version server)
    (parse : List Byte → Option Json) (requests : Nat → TbaRequest)
    (listed : Nat → List TeamDatapoint) (table : List Row) :
    (∃ db, restPressed server parse requests (connect table) = some db ∧
      ((∀ i < 23, ∀ team ∈ listed i, rowOf team ∈ db.tables) ∨ db.tables = table)) ↔
    (∀ i < 23, ∀ team, Yields parse (requests i) team → insertedRow team ≠ none) ∧
      ((∀ i < 23, ∀ team ∈ listed i,
          ∃ j < 23, ∃ t, Yields parse (requests j) t ∧ insertedRow t = some (rowOf team)) ∨
        ∃ teams : Nat → List TeamRecord,
          (∀ i < 23, IsLongest TeamReads (elementsOf parse (requests i)) (teams i)) ∧
          ((List.range 23).flatMap teams).map (fun t => insertedRow t.toTeamDatapoint) =
            table.map some) := by
  rw [restPressed_eq h, exists_prefixes_iff]
  -- what the table holds in the end are the rows of the teams yielded
  have hrows : ∀ rows, (yielded parse requests (List.range 23)).mapM insertedRow = some rows →
      ∀ row, row ∈ rows ↔ ∃ j < 23, ∃ t, Yields parse (requests j) t ∧ insertedRow t = some row := by
    intro rows hmap row
    have hmem : row ∈ rows ↔ some row ∈ rows.map some := by simp
    rw [hmem, ← Lists.mapM_eq_some_iff.mp hmap, List.mem_map]
    simp only [mem_yielded]
    exact ⟨fun ⟨t, ⟨j, hj, hy⟩, ht⟩ => ⟨j, hj, t, hy, ht⟩,
      fun ⟨j, hj, t, hy, ht⟩ => ⟨t, ⟨j, hj, hy⟩, ht⟩⟩
  constructor
  · intro ⟨db, hdb, hgood⟩
    obtain ⟨rows, hmap, hconnect⟩ := Option.map_eq_some_iff.mp hdb
    subst hconnect
    refine ⟨?_, ?_⟩
    · intro i hi team hy hnone
      have hmem := List.mem_map_of_mem (f := insertedRow) (mem_yielded.mpr ⟨i, hi, hy⟩)
      rw [Lists.mapM_eq_some_iff.mp hmap, hnone] at hmem
      simp at hmem
    · rcases hgood with hall | hsame
      · exact Or.inl fun i hi team ht => (hrows rows hmap _).mp (hall i hi team ht)
      · refine Or.inr ?_
        rw [Lists.mapM_eq_some_iff.mp hmap, ← hsame]
        rfl
  · intro ⟨hbuilt, hgood⟩
    have hall : ∀ team ∈ yielded parse requests (List.range 23), insertedRow team ≠ none := by
      intro team hteam
      obtain ⟨i, hi, hy⟩ := mem_yielded.mp hteam
      exact hbuilt i hi team hy
    obtain ⟨rows, hmap⟩ := Lists.mapM_of_ne_none hall
    refine ⟨connect rows, by rw [hmap, Option.map_some], ?_⟩
    rcases hgood with hall | hsame
    · exact Or.inl fun i hi team ht => (hrows rows hmap _).mpr (hall i hi team ht)
    · refine Or.inr ?_
      rw [Lists.mapM_eq_some_iff.mp hmap] at hsame
      exact List.map_injective_iff.mpr (Option.some_injective Row) hsame

/-! ## A server with a table of teams -/

theorem numberTokens_inj {m n : Int} (h : tokens (numberTokens m) = tokens (numberTokens n)) :
    m = n := by
  unfold numberTokens at h
  by_cases hm : 0 ≤ m
  · by_cases hn : 0 ≤ n
    · rw [if_pos hm, if_pos hn] at h
      have hd : digits m.toNat = digits n.toNat := by simpa [tokens, Token.isBlank] using h
      have := digits_inj hd
      omega
    · rw [if_pos hm, if_neg hn] at h
      simp [tokens, Token.isBlank, sep] at h
  · by_cases hn : 0 ≤ n
    · rw [if_neg hm, if_pos hn] at h
      simp [tokens, Token.isBlank, sep] at h
    · rw [if_neg hm, if_neg hn] at h
      have hd : digits (-m).toNat = digits (-n).toNat := by simpa [tokens, Token.isBlank, sep] using h
      have := digits_inj hd
      omega

theorem teamFront_inj {m n : Int} (h : tokens (teamFront m) = tokens (teamFront n)) : m = n := by
  have hfront : ∀ k, tokens (teamFront k) = tokens (teamHead ++ [sep 40]) ++
      (tokens (numberTokens k) ++ (tokens [sep comma, blank] ++
        (tokens (numberTokens k) ++ tokens [sep comma, blank]))) := by
    intro k
    simp only [← tokens_append]
    simp [teamFront]
  rw [hfront, hfront, List.append_cancel_left_eq] at h
  have hlen := congrArg List.length h
  simp only [List.length_append] at hlen
  exact numberTokens_inj (List.append_inj h (by omega)).1

/-- A text inserts one row at most. -/
theorem reads_inj {version : Nat} {text s t : List Byte} {m n : Int}
    (hm : ReadsAsTeam version text m s) (hn : ReadsAsTeam version text n t) : m = n ∧ s = t := by
  obtain ⟨front, raw, hlex, hfront⟩ := hm
  obtain ⟨front', raw', hlex', hfront'⟩ := hn
  obtain ⟨hf, hlast⟩ := List.append_inj' (hlex.unique hlex').1 rfl
  subst hf
  refine ⟨teamFront_inj (hfront.symm.trans hfront'), ?_⟩
  exact Token.str.inj (Prod.mk.inj (List.cons.inj hlast).1).1

open Classical in
/-- A server of version 8.4 that knows the two statements about teams. -/
noncomputable def teamServer : Server (List Row) := fun table text =>
  if text = bytes "delete from team" then ([], .done)
  else if h : ∃ row : Row, ReadsAsTeam 80400 text row.1 row.2 then (table ++ [h.choose], .done)
  else (table, .error)

theorem not_reads_delete (n : Int) (name : List Byte) :
    ¬ ReadsAsTeam 80400 (bytes "delete from team") n name := by
  rintro ⟨front, raw, hlex, _⟩
  have hdelete : Lexes 80400 (bytes "delete from team")
      ([keyword "delete", blank, keyword "from"] ++ [blank, keyword "team"]) := by decide +kernel
  have hlast := (List.append_inj' (hlex.unique hdelete).1 rfl).2
  have htok := (Prod.mk.inj (List.cons.inj hlast).1).1
  exact absurd htok (by simp)

theorem teamServer_servesTeams : ServesTeams 80400 teamServer := by
  refine ⟨fun table => if_pos rfl, ?_⟩
  intro table text n name hreads
  have hdelete : text ≠ bytes "delete from team" := by
    intro h
    exact not_reads_delete n name (h ▸ hreads)
  have hex : ∃ row : Row, ReadsAsTeam 80400 text row.1 row.2 := ⟨(n, name), hreads⟩
  unfold teamServer
  rw [if_neg hdelete, dif_pos hex]
  have hrow : hex.choose = (n, name) := Prod.ext_iff.mpr (reads_inj hex.choose_spec hreads)
  rw [hrow]

/-- The witness: one team on the first page, which arrives whole. -/
theorem restPressed_iff_eagles :
    let eagles : TeamDatapoint := ⟨1138, bytes "Eagle Engineering"⟩
    let parse : List Byte → Option Json := fun body => if body = [] then none else
      some (.array [.object [(bytes "nickname", .str (bytes "Eagle Engineering")),
        (bytes "team_number", .int 1138)]])
    let requests : Nat → TbaRequest := fun i => if i = 0 then .performed [bytes "["] 0 else .noKey
    let listed : Nat → List TeamDatapoint := fun i => if i = 0 then [eagles] else []
    (∃ db, restPressed teamServer parse requests (connect [(254, bytes "Poofs")]) = some db ∧
      ((∀ i < 23, ∀ team ∈ listed i, rowOf team ∈ db.tables) ∨
        db.tables = [(254, bytes "Poofs")])) ↔
    (∀ i < 23, ∀ team, Yields parse (requests i) team → insertedRow team ≠ none) ∧
      ((∀ i < 23, ∀ team ∈ listed i,
          ∃ j < 23, ∃ t, Yields parse (requests j) t ∧ insertedRow t = some (rowOf team)) ∨
        ∃ teams : Nat → List TeamRecord,
          (∀ i < 23, IsLongest TeamReads (elementsOf parse (requests i)) (teams i)) ∧
          ((List.range 23).flatMap teams).map (fun t => insertedRow t.toTeamDatapoint) =
            [(254, bytes "Poofs")].map some) :=
  restPressed_iff teamServer_servesTeams _ _ _ _

/-- Without the file with the key all requests fail. -/
theorem restPressed_noKey {version : Nat} {server : Server (List Row)}
    (h : ServesTeams version server)
    {parse : List Byte → Option Json} (hparse : parse [] = none) (table : List Row) :
    restPressed server parse (fun _ => .noKey) (connect table) = some (connect []) := by
  have hnone : yielded parse (fun _ => .noKey) (List.range 23) = [] := by
    unfold yielded
    rw [List.flatMap_eq_nil_iff]
    intro i _
    unfold teamsOf JsonParser.ofText makeTBAReq
    rw [hparse]
    rfl
  rw [restPressed_eq h, hnone]
  rfl

/-- The table is empty then, whatever was in it. -/
theorem restPressed_noKey_empties :
    ¬ ∃ db, restPressed teamServer (fun _ => none) (fun _ => .noKey)
        (connect [(1138, bytes "Eagle Engineering")]) = some db ∧
      ((∀ i < 23, ∀ team ∈ [(⟨1138, bytes "Eagle Engineering"⟩ : TeamDatapoint)],
          rowOf team ∈ db.tables) ∨ db.tables = [(1138, bytes "Eagle Engineering")]) := by
  intro ⟨db, hdb, hgood⟩
  rw [restPressed_noKey teamServer_servesTeams rfl] at hdb
  rw [← Option.some.inj hdb] at hgood
  rcases hgood with hall | hsame
  · exact absurd (hall 0 (by decide) _ List.mem_cons_self) List.not_mem_nil
  · exact absurd hsame.symm (List.cons_ne_nil _ _)

end ScoutComputer
