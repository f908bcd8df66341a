import Kairos.Workflow.Wire

/-!
# The texts of the flows of a broker

`BrokerFlows` of `pkg/workflow/workflow.go` is a list of endpoints or a condition. `MarshalJSON` has
a pointer receiver and writes the one or the other; `CreateWorkflow` of `server/storage/storage.go`
encodes a value without an address, a record of both. `UnmarshalJSON` tries a list, a string and a
record.
-/

namespace Kairos.Workflow

open JsonText (readJson fits readJson_jsonCompact)

structure Flows where
  endpoints : Option (List GoString)
  condition : GoString
  deriving DecidableEq

namespace Flows

section

variable (showFloat : Float64 → GoString)

def jsonEndpoints : Option (List GoString) → Json
  | none => .null
  | some endpoints => .arr (endpoints.map .str)

def marshalJSON (f : Flows) : Res GoString :=
  if f.condition ≠ [] then .ok (jsonCompact showFloat (.str f.condition))
  else if f.endpoints ≠ none then .ok (jsonCompact showFloat (jsonEndpoints f.endpoints))
  else .err "json: cannot marshal brokerflows"

def marshalRecord (f : Flows) : GoString :=
  jsonCompact showFloat (.obj [jsonField "Endpoints" (jsonEndpoints f.endpoints),
    jsonField "Condition" (.str f.condition)])

end

/-! ## Reading -/

inductive Field where
  | endpoints
  | condition

def decodeString (into : GoString) : Json → Option GoString
  | .str s => some s
  | .null => some into
  | _ => none

def decodeStrings : Json → Option (Option (List GoString))
  | .null => some none
  | .arr items => (items.mapM (decodeString [])).map some
  | _ => none

section

variable (equalFold : GoString → GoString → Bool)

/-- The field of `BrokerFlowsUn` that a key stands for, in any case of letters. -/
def fieldOf (key : GoString) : Option Field :=
  if key = "Endpoints" then some .endpoints
  else if key = "Condition" then some .condition
  else if equalFold key "Endpoints" then some .endpoints
  else if equalFold key "Condition" then some .condition
  else none

def decodeField (c : Flows) (f : GoString × Json) : Option Flows :=
  match fieldOf equalFold f.1 with
  | some .endpoints => (decodeStrings f.2).map fun endpoints => { c with endpoints := endpoints }
  | some .condition =>
    (decodeString c.condition f.2).map fun condition => { c with condition := condition }
  | none => some c

def decodeRecord : Json → Option Flows
  | .obj fields => fields.foldlM (decodeField equalFold) ⟨none, []⟩
  | .null => some ⟨none, []⟩
  | _ => none

def unmarshalJSON (parseFloat : GoString → Float64) (data : GoString) : Option Flows :=
  (((readJson parseFloat data).bind decodeStrings).map fun endpoints => ⟨endpoints, []⟩).or <|
    (((readJson parseFloat data).bind (decodeString [])).map fun condition => ⟨none, condition⟩).or
      ((readJson parseFloat data).bind (decodeRecord equalFold))

end

section

variable {showFloat : Float64 → GoString} {parseFloat : GoString → Float64}
  {equalFold : GoString → GoString → Bool}

theorem fits_jsonEndpoints (depth : ℕ) (endpoints : Option (List GoString)) :
    fits (depth + 1) (jsonEndpoints endpoints) := by
  cases endpoints with
  | none => rfl
  | some endpoints => simp [jsonEndpoints, fits]

theorem decodeStrings_jsonEndpoints (endpoints : Option (List GoString)) :
    decodeStrings (jsonEndpoints endpoints) = some endpoints := by
  cases endpoints with
  | none => rfl
  | some endpoints =>
    have hread : (endpoints.map Json.str).mapM (decodeString []) = some endpoints := by
      induction endpoints with
      | nil => rfl
      | cons e es ih => simp [decodeString, ih]
    exact congrArg (Option.map some) hread

variable {j : Json}

theorem unmarshalJSON_jsonCompact (h : fits 10000 j) :
    unmarshalJSON equalFold parseFloat (jsonCompact showFloat j) =
      ((decodeStrings j).map fun endpoints => ⟨endpoints, []⟩).or
        (((decodeString [] j).map fun condition => ⟨none, condition⟩).or
          (decodeRecord equalFold j)) := by
  simp only [unmarshalJSON, readJson_jsonCompact h, Option.bind_some]

theorem decodeRecord_fields (f : Flows) :
    decodeRecord equalFold (.obj [jsonField "Endpoints" (jsonEndpoints f.endpoints),
      jsonField "Condition" (.str f.condition)]) = some f := by
  have hendpoints : decodeField equalFold ⟨none, []⟩
      (jsonField "Endpoints" (jsonEndpoints f.endpoints)) = some ⟨f.endpoints, []⟩ :=
    congrArg (Option.map _) (decodeStrings_jsonEndpoints f.endpoints)
  rw [decodeRecord, List.foldlM_cons, hendpoints]
  rfl

variable {f : Flows}

theorem exists_marshalJSON
    (h : f.condition ≠ [] ∧ f.endpoints = none ∨ f.endpoints ≠ none ∧ f.condition = []) :
    ∃ data, f.marshalJSON showFloat = .ok data ∧
      unmarshalJSON equalFold parseFloat data = some f := by
  obtain ⟨endpoints, condition⟩ := f
  rcases h with ⟨hcondition, rfl⟩ | ⟨hendpoints, rfl⟩
  · refine ⟨_, if_pos hcondition, ?_⟩
    rw [unmarshalJSON_jsonCompact rfl]
    rfl
  · refine ⟨_, (if_neg (by simp)).trans (if_pos hendpoints), ?_⟩
    rw [unmarshalJSON_jsonCompact (fits_jsonEndpoints 9999 endpoints),
      decodeStrings_jsonEndpoints]
    rfl

theorem unmarshalJSON_marshalRecord (f : Flows) :
    unmarshalJSON equalFold parseFloat (f.marshalRecord showFloat) = some f := by
  have hfits : fits 10000 (.obj [jsonField "Endpoints" (jsonEndpoints f.endpoints),
      jsonField "Condition" (.str f.condition)]) := by
    have hendpoints := fits_jsonEndpoints 9998 f.endpoints
    simp [fits, jsonField, hendpoints]
  rw [marshalRecord, unmarshalJSON_jsonCompact hfits, decodeRecord_fields]
  rfl

def toBrokerFlows (f : Flows) : BrokerFlows := ⟨f.endpoints.getD [], f.condition⟩

theorem marshalJSON_eq_of_toBrokerFlows (h : f.toBrokerFlows.marshalJSON = .ok j) :
    f.marshalJSON showFloat = .ok (jsonCompact showFloat j) := by
  obtain ⟨endpoints, condition⟩ := f
  unfold BrokerFlows.marshalJSON toBrokerFlows at h
  split_ifs at h with hcondition hendpoints
  · cases h
    exact if_pos hcondition
  · cases h
    cases endpoints with
    | none => exact absurd rfl hendpoints
    | some endpoints => exact (if_neg hcondition).trans (if_pos (by simp))

end

/-- Flows with a condition or with endpoints, not both, are read back from what `MarshalJSON` writes
and from the plain record. -/
theorem decodes_encodings (showFloat : Float64 → GoString) (parseFloat : GoString → Float64)
    (equalFold : GoString → GoString → Bool) (f : Flows)
    (h : f.condition ≠ [] ∧ f.endpoints = none ∨ f.endpoints ≠ none ∧ f.condition = []) :
    (∃ data, f.marshalJSON showFloat = .ok data ∧
      unmarshalJSON equalFold parseFloat data = some f) ∧
    unmarshalJSON equalFold parseFloat (f.marshalRecord showFloat) = some f :=
  ⟨exists_marshalJSON h, unmarshalJSON_marshalRecord f⟩

/-- A condition that is the text of a list is read as a condition. -/
theorem listlike_condition_decodes :
    (∃ data, (⟨none, "[\"a\"]"⟩ : Flows).marshalJSON (fun _ => []) = .ok data ∧
      unmarshalJSON (fun _ _ => false) (fun _ => 0) data = some ⟨none, "[\"a\"]"⟩) ∧
    unmarshalJSON (fun _ _ => false) (fun _ => 0)
      ((⟨none, "[\"a\"]"⟩ : Flows).marshalRecord fun _ => []) =
        some ⟨none, "[\"a\"]"⟩ :=
  decodes_encodings _ _ _ _ (.inl ⟨by decide, rfl⟩)

end Flows

end Kairos.Workflow
