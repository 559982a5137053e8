import PrunedHistory.Plan
import PrunedHistory.Proofs.Toml.Sections

/-! Plans read back

    A plan is written as one element of `ref` for each request, and what is written is the plan again when it is read:
    the names with whatever characters, the policies, and the starts where there are any. -/

namespace PrunedHistory

theorem Retention.ofName?_name (r : Retention) : ofName? r.name = some r := by
  cases r <;> rfl

namespace Plan

open Toml (Fields Section Statement Value Writes)

/-- What is written about a request. -/
def fields (r : Request) : Fields :=
  ("name".toList, r.name.toList) :: ("policy".toList, r.retention.name.toList)
    :: r.start.toList.map fun id => ("start".toList, id.chars)

theorem keys_nodup (r : Request) : ((fields r).map (·.1)).Nodup := by
  cases hstart : r.start <;> simp [fields, hstart]

theorem request?_fields (r : Request) : request? (fields r).table = some r := by
  have htable : (fields r).table = .table ((fields r).map (Prod.map id Value.string)) := rfl
  have hname : ((fields r).map (Prod.map id Value.string)).lookup "name".toList = some (.string r.name.toList) := by
    simp [fields]
  have hpolicy : ((fields r).map (Prod.map id Value.string)).lookup "policy".toList
      = some (.string r.retention.name.toList) := by
    simp [fields, List.lookup_cons]
  have hstart : ((fields r).map (Prod.map id Value.string)).lookup "start".toList
      = r.start.map fun id => .string id.chars := by
    cases hstart : r.start <;> simp [fields, hstart, List.lookup_cons]
  have hid : optionalStart? (r.start.map fun id => .string id.chars) = some r.start := by
    cases r.start <;> simp [optionalStart?, start?, string?]
  rw [htable, request?, hname, hpolicy, hstart, hid]
  simp [string?, retention?, Retention.ofName?_name]

theorem mapM_request? : ∀ requests : List Request,
    (requests.map fun r => (fields r).table).mapM request? = some requests
  | [] => rfl
  | r :: requests => by simp [request?_fields, mapM_request? requests]

/-- One element of `ref`. -/
def block (r : Request) : Section := ⟨true, ["ref".toList], fields r⟩

theorem spells_ref : Toml.Spells "[[ref]]\n".toList (some (.element ["ref".toList])) := by
  have href : Toml.IsBareKey "ref".toList := ⟨by simp, by simp [Toml.isBare]⟩
  simpa using Toml.spells_element href

theorem requestText_eq (r : Request) : requestText r = "[[ref]]\n".toList ++ (fields r).text := by
  unfold requestText fields Fields.text
  simp only [List.flatMap_cons, List.flatMap_map, List.append_assoc]

theorem writes_requestText (r : Request) : Writes (requestText r) (block r).statements := by
  have hwrites : Writes ("[[ref]]\n".toList ++ (block r).fields.text) (block r).statements :=
    Toml.writes_section spells_ref
  rw [requestText_eq]
  exact hwrites

theorem forall₂_writes : ∀ requests : List Request,
    List.Forall₂ Writes (requests.map requestText) (requests.map fun r => (block r).statements)
  | [] => .nil
  | r :: requests => .cons (writes_requestText r) (forall₂_writes requests)

theorem parse?_empty : Toml.parse? "ref = []\n" = some [("ref".toList, .array [])] := by
  rfl

/-- A plan without requests is written with an empty array, and else there are elements. -/
theorem parse?_toml_text (p : Plan) :
    Toml.parse? p.text = some [("ref".toList, .array (p.requests.map fun r => (fields r).table))] := by
  obtain ⟨requests⟩ := p
  match requests with
  -- An empty plan is written as an inline array, the others as tables.
  | [] =>
    rw [text, String.ofList_toList]
    exact parse?_empty
  | r :: requests =>
    have hwrites := Writes.intercalate (forall₂_writes (r :: requests))
    have hkeys : ∀ items ∈ (r :: requests).map fields, (items.map (·.1)).Nodup := by
      simp [keys_nodup]
    have htable := Toml.tableOfStatements?_elements "ref".toList hkeys
    rw [← List.map_cons, List.map_map, List.map_map] at htable
    calc Toml.parse? (text ⟨r :: requests⟩)
      _ = Toml.tableOfStatements? ((r :: requests).map fun r => (block r).statements).flatten :=
        Toml.parse?_of_writes hwrites
      _ = Toml.tableOfStatements? (((r :: requests).map block).flatMap Section.statements) := by
        rw [List.flatMap_def, List.map_map]
        rfl
      _ = some [("ref".toList, .array ((r :: requests).map fun r => (fields r).table))] := htable

/-- The elements that are written give the requests back. -/
theorem ofTable?_elements (requests : List Request) :
    ofTable? [("ref".toList, .array (requests.map fun r => (fields r).table))] = some ⟨requests⟩ := by
  have hlookup : ∀ value : Value, [("ref".toList, value)].lookup "ref".toList = some value := by
    simp
  rw [ofTable?, hlookup]
  simp only [mapM_request?, Option.map_some]

/-- A plan that is written and read is the same plan. -/
theorem parse?_text (p : Plan) : parse? p.text = some p := by
  rw [parse?, parse?_toml_text, Option.bind_some, ofTable?_elements]

end Plan

end PrunedHistory
