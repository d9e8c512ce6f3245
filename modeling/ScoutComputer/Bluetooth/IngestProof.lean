import ScoutComputer.Bluetooth.ConductorProof

/-!
# How much of a match reaches the database

`parseMatch` falls through to `return` after an exception, so a message with a
malformed element is submitted up to that element.
-/

namespace ScoutComputer

open Interact JsonParser LongestPrefix

/-- The statements are one insert for each of the elements, in order, or there are none. -/
def WholeOrNothing (es : List Json) (statements : List (List Byte)) : Prop :=
  statements = [] ∨
    ∃ ds, es.map decodeMatch = ds.map some ∧ statements = addMatchDatapoints ds

/-- Every element decodes, or already the first one does not. -/
def AllOrFirst (es : List Json) : Prop :=
  (∀ e ∈ es, (decodeMatch e).isSome) ∨ es.head?.bind decodeMatch = none

theorem wholeOrNothing_iff (es : List Json) :
    WholeOrNothing es (addMatchDatapoints (decoded decodeMatch es)) ↔ AllOrFirst es := by
  constructor
  · intro h
    rcases h with hnil | ⟨ds, hds, _⟩
    · exact Or.inr (decoded_eq_nil.mp (List.map_eq_nil_iff.mp hnil))
    · refine Or.inl fun e he => ?_
      have hmem : decodeMatch e ∈ ds.map some := by
        rw [← hds]
        exact List.mem_map_of_mem he
      obtain ⟨d, _, hd⟩ := List.mem_map.mp hmem
      rw [← hd]
      rfl
  · intro h
    rcases h with hall | hfirst
    · exact Or.inr ⟨_, map_some_decoded hall, rfl⟩
    · refine Or.inl ?_
      rw [decoded_eq_nil.mpr hfirst]
      rfl

section
variable {ρ : Type}

/-- What the conductor submits for a match that was received. -/
theorem handleTransResult_match (parse : List Byte → Option Json) (trans : TabTransaction ρ)
    {payload : List Byte} (htype : trans.transactionType = transRecvMatch)
    (hw : trans.writeTransaction = false) (hs : trans.success = true)
    (hr : trans.result? = some (some payload, true)) :
    ∃ r, handleTransResult parse trans = .ok r ∧
      r.statements =
        addMatchDatapoints (decoded decodeMatch (ofText parse payload).scoutingData) := by
  unfold handleTransResult
  rw [if_neg (by rw [hw]; exact Bool.false_ne_true), if_pos htype, get_of_result hr]
  refine ⟨⟨{ trans with data := none }, _, none⟩, ?_, rfl⟩
  show (if trans.success then _ else _) = _
  rw [if_pos hs, parseMatch_eq]
  rfl

/-- **A match is ingested as a whole or not at all exactly when no element but the first is bad.** -/
theorem handleTransResult_match_iff (parse : List Byte → Option Json) (trans : TabTransaction ρ)
    (payload : List Byte) (htype : trans.transactionType = transRecvMatch)
    (hw : trans.writeTransaction = false) (hs : trans.success = true)
    (hr : trans.result? = some (some payload, true)) :
    ∃ r, handleTransResult parse trans = .ok r ∧
      (WholeOrNothing (ofText parse payload).scoutingData r.statements ↔
        AllOrFirst (ofText parse payload).scoutingData) := by
  obtain ⟨r, hr, hst⟩ := handleTransResult_match parse trans htype hw hs hr
  refine ⟨r, hr, ?_⟩
  rw [hst]
  exact wholeOrNothing_iff _

end

/-- A transaction whose transfer has delivered `payload`. -/
def deliveredMatch (payload : List Byte) : TabTransaction Nat where
  parent := some 0
  transactionType := transRecvMatch
  data := some
    { started := true, this := 0, success := 0, prog := .ret (some payload, true), owner := 0,
      forCode := 1 }
  batmanTrans := false
  success := true
  writeTransaction := false

/-- A match whose second element has only one of the seven fields. -/
def halfMatchText : List Byte :=
  bytes "\x7b\"scoutingData\":[\x7b\"DCTimestamp\":\"noShow\",\"DCValue\":\"fast\",\"allianceID\":\"blue1\",\"datapointID\":\"12\",\"matchID\":\"3\",\"scouterID\":\"7\",\"teamID\":\"1138\"\x7d,\x7b\"scouterID\":\"7\"\x7d]\x7d"

/-- The value of its `scoutingData`. -/
def halfElements : List Json :=
  [.object
    [(bytes "DCTimestamp", .str (bytes "noShow")), (bytes "DCValue", .str (bytes "fast")),
      (bytes "allianceID", .str (bytes "blue1")), (bytes "datapointID", .str (bytes "12")),
      (bytes "matchID", .str (bytes "3")), (bytes "scouterID", .str (bytes "7")),
      (bytes "teamID", .str (bytes "1138"))],
    .object [(bytes "scouterID", .str (bytes "7"))]]

/-- A parser that knows this one text. -/
def parseHalfMatch (s : List Byte) : Option Json :=
  if s = halfMatchText then some (.object [(bytes "scoutingData", .array halfElements)]) else none

theorem scoutingData_half : (ofText parseHalfMatch halfMatchText).scoutingData = halfElements := by
  have h : parseHalfMatch halfMatchText =
      some (.object [(bytes "scoutingData", .array halfElements)]) := if_pos rfl
  have hindex : Json.index (.object [(bytes "scoutingData", .array halfElements)])
      (bytes "scoutingData") = some (.array halfElements) := by
    rw [Json.index, List.lookup_cons_self, Option.getD_some]
  rw [scoutingData, ofText, h, Option.getD_some, hindex]
  rfl

theorem handleTransResult_match_iff_half : ∃ r,
    handleTransResult parseHalfMatch (deliveredMatch halfMatchText) = .ok r ∧
      (WholeOrNothing (ofText parseHalfMatch halfMatchText).scoutingData r.statements ↔
        AllOrFirst (ofText parseHalfMatch halfMatchText).scoutingData) :=
  handleTransResult_match_iff parseHalfMatch (deliveredMatch halfMatchText) halfMatchText rfl rfl rfl
    rfl

/-- The first element of that match is submitted, the second is dropped. -/
theorem halfMatch_submitted : ∃ r,
    handleTransResult parseHalfMatch (deliveredMatch halfMatchText) = .ok r ∧
      ¬ WholeOrNothing (ofText parseHalfMatch halfMatchText).scoutingData r.statements := by
  obtain ⟨r, hr, hst⟩ := handleTransResult_match parseHalfMatch (deliveredMatch halfMatchText)
    rfl rfl rfl rfl
  refine ⟨r, hr, ?_⟩
  rw [hst, wholeOrNothing_iff, scoutingData_half]
  intro h
  rcases h with h | h
  · have hsnd := h _ (List.mem_cons_of_mem _ List.mem_cons_self)
    exact absurd hsnd (by decide +kernel)
  · exact absurd h (by decide +kernel)

end ScoutComputer
