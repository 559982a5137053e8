import PrunedHistory.Publication.Outcome
import PrunedHistory.Toml.Quoting

/-! The report of an outcome

    A TOML text with a table for each head and then one for each tag, in name order. -/

namespace PrunedHistory.Outcome

/-- The head of the table of one name in a group. -/
def tableHead (group : String) (name : String) : List Char :=
  '[' :: group.toList ++ '.' :: Toml.keyText name.toList ++ [']', '\n']

def idLine (key : String) (id : ObjectId) : List Char := Toml.stringLine key.toList id.chars

/-- The table of a head: its policy, where it was and where it is. -/
def headText (name : String) (h : HeadChange) : List Char :=
  tableHead "heads" name ++ Toml.stringLine "policy".toList h.retention.name.toList
    ++ idLine "original" h.before ++ idLine "rewritten" h.after

/-- The table of a tag; of a dropped one only where it was. -/
def tagText (name : String) (t : TagChange) : List Char :=
  tableHead "tags" name ++ idLine "original" t.before
    ++ t.after.toList.flatMap (idLine "rewritten") ++ t.commit.toList.flatMap (idLine "commit")

/-- The tables of a group, or its bare head if there are none. -/
def groupTexts {α : Type} (group : String) (text : String → α → List Char) (m : NameMap α) : List (List Char) :=
  match m.entries with
  | [] => ['[' :: group.toList ++ [']', '\n']]
  | entries => entries.map fun (name, a) => text name a

/-- All tables, with an empty line between them. -/
def report (o : Outcome) : String :=
  .ofList (['\n'].intercalate (groupTexts "heads" headText o.heads ++ groupTexts "tags" tagText o.tags))

end PrunedHistory.Outcome
