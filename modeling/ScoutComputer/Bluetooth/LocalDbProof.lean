import ScoutComputer.Bluetooth.Conductor
import ScoutComputer.Data.Decimal
import ScoutComputer.Data.RestReqHandler
import ScoutComputer.Lib.Separated

/-!
# What a tablet can recover from the local database

Nothing is escaped in `scouterList.csv`, so a name in which a colon, digits and a comma
follow each other reads as two scouters. As long as there is no such name, the entries
end where the handlers ended them, and both lists can be read back.
-/

namespace ScoutComputer

open Separated

/-- A row of the query for the scouters. -/
structure Scouter where
  first : List Byte
  last : List Byte
  id : List Byte

namespace Scouter

/-- The row as `Database::query` returns it. -/
def row (s : Scouter) : List (List Byte) := [s.first, s.last, s.id]

def fullName (s : Scouter) : List Byte := s.first ++ bytes " " ++ s.last

end Scouter

/-- The text of a number that is not negative. -/
def IsNumeral (s : List Byte) : Prop := s ≠ [] ∧ ∀ c ∈ s, 48 ≤ c ∧ c ≤ 57

/-- A name in which a whole entry ends. -/
def EntryEnds (name : List Byte) : Prop :=
  ∃ x id y, name = x ++ 58 :: (id ++ 44 :: y) ∧ IsNumeral id

/-- The files hold what the two handlers wrote, for results that were not empty. -/
structure Written (parse : List Byte → Option Json) (readWholeFile : Files)
    (scouters : List Scouter) (request : TbaRequest) : Prop where
  someScouter : scouters ≠ []
  someTeam : teamsOf parse request ≠ []
  scouterList : ∃ file, scouterUpdate (scouters.map Scouter.row) file =
    some (readWholeFile "resources/csv/scouterList.csv")
  teamCompList : ∃ file, getteamsatcomphdata parse request file =
    readWholeFile "resources/csv/teamCompList.csv"

/-! ## The two formats -/

theorem commaSeparated_eq (es : List (List Byte)) : commaSeparated es = joined 44 es := by
  cases es with
  | nil => rfl
  | cons e es => rfl

/-- An entry of `scouterList.csv`. -/
def IsEntry (e : List Byte) : Prop :=
  ∃ name id, e = name ++ 58 :: id ∧ IsNumeral id ∧ ¬ EntryEnds name

theorem colon_notMem {id : List Byte} (h : IsNumeral id) : (58 : Byte) ∉ id := by
  intro hc
  exact absurd (h.2 58 hc).2 (by decide)

/-- A name that goes on behind a colon would have an entry end in it. -/
theorem entry_aligned {name m id id' rest rest' : List Byte} (hid : IsNumeral id)
    (hr : Follows 44 rest) (hname : ¬ EntryEnds (name ++ m))
    (h : 58 :: (id ++ rest) = m ++ 58 :: (id' ++ rest')) : m = [] := by
  cases m with
  | nil => rfl
  | cons c m =>
      exfalso
      obtain ⟨hc, hrun⟩ := List.cons.inj h
      subst hc
      rcases List.append_eq_append_iff.mp hrun with ⟨k, hm, hrest⟩ | ⟨k, hk, htail⟩
      · cases hr with
        | nil => exact absurd hrest (by simp)
        | cons t =>
            cases k with
            | nil => exact absurd (List.cons.inj hrest).1 (by decide)
            | cons d k =>
                have hd : 44 = d := (List.cons.inj hrest).1
                subst hd
                exact hname ⟨name, id, k, by rw [hm], hid⟩
      · cases k with
        | nil =>
            rw [List.nil_append] at htail
            rw [← htail] at hr
            cases hr
        | cons d k =>
            have hd : 58 = d := (List.cons.inj htail).1
            refine colon_notMem hid ?_
            rw [hk, ← hd]
            simp

theorem isEntry_selfDelimiting : SelfDelimiting 44 IsEntry := by
  intro e e' rest rest' ⟨name, id, he, hid, hname⟩ ⟨name', id', he', hid', hname'⟩ hr hr' heq
  subst he
  subst he'
  rw [List.append_assoc, List.append_assoc, List.cons_append, List.cons_append] at heq
  have hcomma : ∀ s, IsNumeral s → (44 : Byte) ∉ s := by
    intro s hs hc
    exact absurd (hs.2 44 hc).1 (by decide)
  have hsame : name = name' := by
    rcases List.append_eq_append_iff.mp heq with ⟨m, hm, h⟩ | ⟨m, hm, h⟩
    · have := entry_aligned hid hr (hm ▸ hname') h
      rw [hm, this, List.append_nil]
    · have := entry_aligned hid' hr' (hm ▸ hname) h
      rw [hm, this, List.append_nil]
  subst hsame
  have htail : id ++ rest = id' ++ rest' := (List.cons.inj (List.append_cancel_left heq)).2
  rw [selfDelimiting_of_notMem 44 id id' rest rest' (hcomma id hid) (hcomma id' hid') hr hr' htail]

/-! ## The payload -/

theorem bytes_separators : bytes " " = [32] ∧ bytes ":" = [58] ∧ bytes "\n" = [10] := by
  decide +kernel

theorem mapM_scouterEntry (scouters : List Scouter) :
    (scouters.map Scouter.row).mapM scouterEntry =
      some (scouters.map fun s => s.fullName ++ 58 :: s.id) := by
  induction scouters with
  | nil => rfl
  | cons s scouters ih =>
      rw [List.map_cons, List.mapM_cons, ih]
      simp [Scouter.row, scouterEntry, Scouter.fullName, bytes_separators.2.1]

theorem scouterList_eq {scouters : List Scouter} {file text : List Byte} (hne : scouters ≠ [])
    (h : scouterUpdate (scouters.map Scouter.row) file = some text) :
    text = joined 44 (scouters.map fun s => s.fullName ++ 58 :: s.id) := by
  cases hs : scouters with
  | nil => exact absurd hs hne
  | cons s rest =>
      rw [hs, List.map_cons, scouterUpdate, if_pos (by rfl), ← List.map_cons, mapM_scouterEntry,
        Option.map_some, commaSeparated_eq] at h
      exact (Option.some.inj h).symm

theorem teamCompList_eq {parse : List Byte → Option Json} {request : TbaRequest}
    {file : List Byte} (hne : teamsOf parse request ≠ []) :
    getteamsatcomphdata parse request file =
      joined 44 ((teamsOf parse request).map fun team => decimal team.teamNum.toInt) := by
  unfold getteamsatcomphdata
  split
  · rename_i hnil
    exact absurd hnil hne
  · exact commaSeparated_eq _

theorem newline_notMem_teams (teams : List TeamDatapoint) :
    (10 : Byte) ∉ joined 44 (teams.map fun team => decimal team.teamNum.toInt) := by
  have hdec : ∀ n : Int, (10 : Byte) ∉ decimal n := by
    intro n hc
    rcases decimal_range hc with h | h
    · exact absurd h (by decide)
    · exact absurd h.1 (by decide)
  cases teams with
  | nil => exact List.not_mem_nil
  | cons team teams =>
      intro hc
      rcases List.mem_append.mp hc with hc | hc
      · exact hdec _ hc
      · obtain ⟨e, he, hc⟩ := List.mem_flatMap.mp hc
        obtain ⟨t, _, ht⟩ := List.mem_map.mp he
        rcases List.mem_cons.mp hc with hc | hc
        · exact absurd hc (by decide)
        · exact hdec _ (ht ▸ hc)

/-- An entry determines the name and the id. -/
theorem entry_inj {s t : Scouter} (hs : IsNumeral s.id) (ht : IsNumeral t.id)
    (h : s.fullName ++ 58 :: s.id = t.fullName ++ 58 :: t.id) :
    (s.fullName, s.id) = (t.fullName, t.id) := by
  obtain ⟨hname, hid⟩ := append_cons_inj (colon_notMem hs) (colon_notMem ht) h
  rw [hname, hid]

theorem scouters_inj {scouters scouters' : List Scouter}
    (hid : ∀ s ∈ scouters, IsNumeral s.id) (hid' : ∀ s ∈ scouters', IsNumeral s.id)
    (h : (scouters.map fun s => s.fullName ++ 58 :: s.id) =
      scouters'.map fun s => s.fullName ++ 58 :: s.id) :
    (scouters.map fun s => (s.fullName, s.id)) = scouters'.map fun s => (s.fullName, s.id) := by
  induction scouters generalizing scouters' with
  | nil =>
      rw [List.map_nil] at h
      rw [List.map_eq_nil_iff.mp h.symm]
  | cons s scouters ih =>
      cases scouters' with
      | nil => exact absurd h (by simp)
      | cons t scouters' =>
          rw [List.map_cons, List.map_cons] at h ⊢
          obtain ⟨hhead, htail⟩ := List.cons.inj h
          rw [entry_inj (hid s List.mem_cons_self) (hid' t List.mem_cons_self) hhead,
            ih (fun x hx => hid x (List.mem_cons_of_mem s hx))
              (fun x hx => hid' x (List.mem_cons_of_mem t hx)) htail]

/-- **The payload determines both lists**, as long as no entry ends within a name. -/
theorem localDb_inj {parse : List Byte → Option Json} {files files' : Files}
    {scouters scouters' : List Scouter} {request request' : TbaRequest}
    (h : Written parse files scouters request) (h' : Written parse files' scouters' request')
    (hid : ∀ s ∈ scouters, IsNumeral s.id) (hid' : ∀ s ∈ scouters', IsNumeral s.id)
    (hname : ∀ s ∈ scouters, ¬ EntryEnds s.fullName)
    (hname' : ∀ s ∈ scouters', ¬ EntryEnds s.fullName)
    (heq : localDb files = localDb files') :
    (scouters.map fun s => (s.fullName, s.id)) = (scouters'.map fun s => (s.fullName, s.id)) ∧
      (teamsOf parse request).map TeamDatapoint.teamNum =
        (teamsOf parse request').map TeamDatapoint.teamNum := by
  obtain ⟨hne, htne, ⟨file, hs⟩, ⟨tfile, ht⟩⟩ := h
  obtain ⟨hne', htne', ⟨file', hs'⟩, ⟨tfile', ht'⟩⟩ := h'
  rw [teamCompList_eq htne] at ht
  rw [teamCompList_eq htne'] at ht'
  have hcut := newline_notMem_teams (teamsOf parse request)
  have hcut' := newline_notMem_teams (teamsOf parse request')
  unfold localDb at heq
  rw [scouterList_eq hne hs, scouterList_eq hne' hs', ← ht, ← ht', bytes_separators.2.2,
    List.append_assoc, List.append_assoc, List.singleton_append, List.singleton_append] at heq
  -- there is no newline among the teams, so the last one divides the two files
  obtain ⟨hscout, hteam⟩ := append_cons_inj hcut hcut' heq
  have hentry : ∀ l : List Scouter, (∀ s ∈ l, IsNumeral s.id) →
      (∀ s ∈ l, ¬ EntryEnds s.fullName) →
      ∀ e ∈ l.map fun s => s.fullName ++ 58 :: s.id, IsEntry e := by
    intro l hi hn e he
    obtain ⟨s, hsl, hse⟩ := List.mem_map.mp he
    exact ⟨_, _, hse.symm, hi s hsl, hn s hsl⟩
  have hentries := joined_inj isEntry_selfDelimiting (hentry _ hid hname) (hentry _ hid' hname')
    (by simpa using hne) (by simpa using hne') hscout
  have hnumber : ∀ l : List TeamDatapoint,
      ∀ e ∈ l.map fun team => decimal team.teamNum.toInt, (44 : Byte) ∉ e := by
    intro l e he hc
    obtain ⟨team, _, hte⟩ := List.mem_map.mp he
    rcases decimal_range (hte ▸ hc) with h | h
    · exact absurd h (by decide)
    · exact absurd h.1 (by decide)
  have hnumbers := joined_inj (selfDelimiting_of_notMem 44) (hnumber _) (hnumber _)
    (by simpa using htne) (by simpa using htne') hteam
  refine ⟨scouters_inj hid hid' hentries, ?_⟩
  -- equal numerals are equal numbers
  have hdec : Function.Injective fun n : Int32 => decimal n.toInt :=
    fun m n hmn => Int32.toInt_inj.mp (decimal_inj hmn)
  refine List.map_injective_iff.mpr hdec ?_
  rw [List.map_map, List.map_map]
  exact hnumbers

/-- A name without a colon has no entry ending in it. -/
theorem not_entryEnds {name : List Byte} (h : (58 : Byte) ∉ name) : ¬ EntryEnds name := by
  intro ⟨x, id, y, hname, _⟩
  refine h ?_
  rw [hname]
  simp

/-- A colon in front of something that is no digit ends no entry. -/
theorem not_entryEnds_colon {pre post : List Byte} (hpre : (58 : Byte) ∉ pre)
    (hpost : (58 : Byte) ∉ post) (hdigit : ∀ c ∈ post.head?, ¬ (48 ≤ c ∧ c ≤ 57)) :
    ¬ EntryEnds (pre ++ 58 :: post) := by
  intro ⟨x, id, y, hname, hne, hid⟩
  have hsame : post = id ++ 44 :: y → False := by
    intro h
    cases id with
    | nil => exact hne rfl
    | cons c id => exact hdigit c (by simp [h]) (hid c List.mem_cons_self)
  -- the colon in front of the digits is the only one there is
  rcases List.append_eq_append_iff.mp hname with ⟨k, hx, h⟩ | ⟨k, hp, h⟩
  · cases k with
    | nil => exact hsame (List.cons.inj h).2
    | cons c k =>
        refine hpost ?_
        rw [(List.cons.inj h).2]
        simp
  · cases k with
    | nil => exact hsame (List.cons.inj h).2.symm
    | cons c k =>
        refine hpre ?_
        rw [hp, ← (List.cons.inj h).1]
        simp

/-- Two scouters with spaces, a colon, a comma and a newline in their last names. -/
def adaAndEve : List Scouter :=
  [⟨bytes "Ada", bytes "L x", bytes "7"⟩, ⟨bytes "Eve", bytes "B: c,\nd", bytes "12"⟩]

/-- The same full names from other first and last names. -/
def adaLAndEveB : List Scouter :=
  [⟨bytes "Ada L", bytes "x", bytes "7"⟩, ⟨bytes "Eve B:", bytes "c,\nd", bytes "12"⟩]

/-- A site that tells the names of its two teams only to one of two requests. -/
def twoTeamSite : List Byte → Option Json := fun text =>
  if text = [] then
    some (.array [.object [(bytes "team_number", .int 1138)],
      .object [(bytes "team_number", .int 254)]])
  else
    some (.array
      [.object [(bytes "nickname", .str (bytes "Eagle")), (bytes "team_number", .int 1138)],
        .object [(bytes "team_number", .float 254)]])

def adaFiles : Files := fun name =>
  if name = "resources/csv/scouterList.csv" then bytes "Ada L x:7,Eve B: c,\nd:12"
  else bytes "1138,254"

theorem adaAndEve_written : Written twoTeamSite adaFiles adaAndEve .noKey :=
  ⟨List.cons_ne_nil _ _, by decide +kernel, ⟨[], by decide +kernel⟩, ⟨[], by decide +kernel⟩⟩

theorem adaLAndEveB_written :
    Written twoTeamSite adaFiles adaLAndEveB (.performed [bytes "full"] 0) :=
  ⟨List.cons_ne_nil _ _, by decide +kernel, ⟨[], by decide +kernel⟩, ⟨[], by decide +kernel⟩⟩

/-- The two full names and the two ids are harmless. -/
theorem ada_harmless {first last first' last' : List Byte}
    (h : first ++ bytes " " ++ last = bytes "Ada L x")
    (h' : first' ++ bytes " " ++ last' = bytes "Eve B: c,\nd") :
    ∀ s ∈ [(⟨first, last, bytes "7"⟩ : Scouter), ⟨first', last', bytes "12"⟩],
      IsNumeral s.id ∧ ¬ EntryEnds s.fullName := by
  have heve : bytes "Eve B: c,\nd" = bytes "Eve B" ++ 58 :: bytes " c,\nd" := by decide +kernel
  have hseven : IsNumeral (bytes "7") := ⟨by decide +kernel, by decide +kernel⟩
  have htwelve : IsNumeral (bytes "12") := ⟨by decide +kernel, by decide +kernel⟩
  intro s hs
  rcases List.mem_cons.mp hs with hs | hs
  · subst hs
    refine ⟨hseven, ?_⟩
    rw [Scouter.fullName, h]
    exact not_entryEnds (by decide +kernel)
  · rw [List.mem_singleton.mp hs]
    refine ⟨htwelve, ?_⟩
    rw [Scouter.fullName, h', heve]
    exact not_entryEnds_colon (by decide +kernel) (by decide +kernel) (by decide +kernel)

/-- Two results that differ in all their columns but the ids, and two answers of the site. -/
theorem localDb_inj_ada :
    (adaAndEve.map fun s => (s.fullName, s.id)) = (adaLAndEveB.map fun s => (s.fullName, s.id)) ∧
      (teamsOf twoTeamSite .noKey).map TeamDatapoint.teamNum =
        (teamsOf twoTeamSite (.performed [bytes "full"] 0)).map TeamDatapoint.teamNum := by
  have h : ∀ s ∈ adaAndEve, IsNumeral s.id ∧ ¬ EntryEnds s.fullName :=
    ada_harmless (by decide +kernel) (by decide +kernel)
  have h' : ∀ s ∈ adaLAndEveB, IsNumeral s.id ∧ ¬ EntryEnds s.fullName :=
    ada_harmless (by decide +kernel) (by decide +kernel)
  exact localDb_inj adaAndEve_written adaLAndEveB_written (fun s hs => (h s hs).1)
    (fun s hs => (h' s hs).1) (fun s hs => (h s hs).2) (fun s hs => (h' s hs).2) rfl

/-- A site whose every answer is one team. -/
def oneTeam : List Byte → Option Json :=
  fun _ => some (.array [.object [(bytes "team_number", .int 1138)]])

def someFiles (scouterList : String) : Files := fun name =>
  if name = "resources/csv/scouterList.csv" then bytes scouterList else bytes "1138"

/-- Two scouters. -/
def twoScouters : List Scouter :=
  [⟨bytes "a", bytes "b", bytes "1"⟩, ⟨bytes "c", bytes "d", bytes "2"⟩]

/-- One scouter with a colon and a comma in the name. -/
def oddScouter : List Scouter := [⟨bytes "a", bytes "b:1,c d", bytes "2"⟩]

/-- The same two files can be written for either. -/
theorem localDb_two_readings :
    Written oneTeam (someFiles "a b:1,c d:2") twoScouters .noKey ∧
      Written oneTeam (someFiles "a b:1,c d:2") oddScouter .noKey ∧
      (twoScouters.map fun s => (s.fullName, s.id)) ≠
        oddScouter.map fun s => (s.fullName, s.id) := by
  refine ⟨⟨List.cons_ne_nil _ _, by decide +kernel, ⟨[], by decide +kernel⟩,
      ⟨[], by decide +kernel⟩⟩,
    ⟨List.cons_ne_nil _ _, by decide +kernel, ⟨[], by decide +kernel⟩,
      ⟨[], by decide +kernel⟩⟩, ?_⟩
  decide +kernel

end ScoutComputer
