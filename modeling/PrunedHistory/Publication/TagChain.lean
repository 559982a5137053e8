import Std.Data.TreeSet.Lemmas
import PrunedHistory.Publication.Outcome

/-! Chains of tag objects

    A tag leads to its commit through any number of tag objects. They are read one after the other, and nothing but
    another kind of object ends that, so tag objects that lead back to one another are read for ever. How many may be
    read of one tag is therefore a limit from outside: a run that ends within a limit is the same run under every
    greater one, and a run that ends within no limit does not end.

    When the commit gets a new id, the chain is built again from the inside: every tag object is the same as before on
    another target. -/

namespace PrunedHistory

/-- A tag with the way to its commit. -/
structure PeeledTag where
  tag : TagRef
  /-- The tag objects passed, outermost first. -/
  chain : List Tag
  commit : ObjectId
deriving DecidableEq

namespace PeeledTag

/-- The tag objects from `id` inwards and the commit they lead to; nothing if they lead to a tree or a blob. Only as many
    are read as the limit allows. -/
def follow : (limit : Nat) → ObjectId → Reading (Except (Stop PublicationError) (Option (List Tag × ObjectId)))
  | 0, _ => .done (.error .atLimit)
  | limit + 1, id => (Dialogue.question (Query.tag id)).bind fun
    | .error e => .done (.error (.failed (.read e)))
    | .ok tag =>
      match tag.kind with
      | .commit => .done (.ok (some ([tag], tag.object)))
      | .tag => (follow limit tag.object).bind fun found =>
          .done (found.map (Option.map fun (chain, commit) => (tag :: chain, commit)))
      | _ => .done (.ok none)

/-- A listed tag with the way to its commit. -/
def ofRef (limit : Nat) (tag : TagRef) : Reading (Except (Stop PublicationError) (Option PeeledTag)) :=
  match tag with
  | .lightweight _ target => .done (.ok (some ⟨tag, [], target⟩))
  | .annotated _ id => (follow limit id).bind fun found =>
      .done (found.map (Option.map fun (chain, commit) => ⟨tag, chain, commit⟩))

/-- The listed tags that lead to commits. -/
def ofRefs (limit : Nat) : List TagRef → Reading (Except (Stop PublicationError) (List PeeledTag))
  | [] => .done (.ok [])
  | tag :: rest => (ofRef limit tag).bind fun
    | .error e => .done (.error e)
    | .ok peeled => (ofRefs limit rest).bind fun others => .done (others.map (peeled.toList ++ ·))

/-- A chain, innermost tag object first, put on another target. -/
def retargetInwards (target : ObjectId) : List Tag → List Tag
  | [] => []
  | tag :: outer =>
    let tag := tag.retarget target
    tag :: retargetInwards tag.id outer

/-- The tag objects of the chain built again on a new commit, innermost first. -/
def rebuild (p : PeeledTag) (commit : ObjectId) : List Tag := retargetInwards commit p.chain.reverse

/-- Where the tag is when its commit is kept under the given id. -/
def position (p : PeeledTag) (commit : ObjectId) : ObjectId :=
  if commit = p.commit then p.tag.id else ((p.rebuild commit).getLast?.map Tag.id).getD commit

end PeeledTag

/-! ### Retargeting all tags -/

/-- What the tags seen so far come to. -/
structure TagPass where
  changes : NameMap TagChange := ∅
  /-- New tag objects, innermost first. -/
  objects : List Tag := []
  /-- The ids of the new tag objects. -/
  built : Std.TreeSet ObjectId := ∅

namespace TagPass

/-- Lists a new tag object, unless it is listed already. -/
def list (pass : TagPass) (tag : Tag) : TagPass :=
  if pass.built.contains tag.id then pass
  else { pass with objects := pass.objects ++ [tag], built := pass.built.insert tag.id }

/-- Retargets one more tag. A tag outside the published history is passed over. -/
def step (ledger : Ledger) (pass : TagPass) (p : PeeledTag) : TagPass :=
  match ledger.find? p.commit with
  | none => pass
  | some (.drop _) => { pass with changes := pass.changes.insert p.tag.name ⟨p.tag.id, none, none⟩ }
  | some (.keep replacement) =>
    -- A commit that keeps its id keeps the tag objects as they are.
    let pass := if replacement.id = p.commit then pass else (p.rebuild replacement.id).foldl list pass
    let change := ⟨p.tag.id, some (p.position replacement.id), some replacement.id⟩
    { pass with changes := pass.changes.insert p.tag.name change }

/-- All tags, one after the other. -/
def ofTags (ledger : Ledger) (tags : List PeeledTag) : TagPass := tags.foldl (step ledger) {}

end TagPass

end PrunedHistory
