import PrunedHistory.Publication.TagChain

/-! A publication

    All requests are resolved and all tags peeled before anything else; then the branches are walked in the order of
    the requests, on one ledger, and at last the tags are retargeted. A branch meets what earlier branches have decided,
    so the order of the requests counts. Either all of it succeeds or nothing is published. -/

namespace PrunedHistory

/-- An outcome with the published commits by their new ids. -/
structure Published where
  outcome : Outcome
  commits : Std.TreeMap ObjectId Commit

namespace Publication

/-- The commit each request starts from. -/
def starts : List Request → Reading (Except PublicationError (List ObjectId))
  | [] => .done (.ok [])
  | request :: rest =>
    let start : Reading (Except PublicationError ObjectId) :=
      match request.start with
      | some id => .done (.ok id)
      | none => (Dialogue.question (Query.resolve request.name)).bind fun found =>
          .done (found.mapError .read)
    start.bind fun
      | .error e => .done (.error e)
      | .ok id => (starts rest).bind fun others => .done (others.map (id :: ·))

/-- Every tag of the repository that leads to a commit. -/
def peeledTags (limit : Nat) : Reading (Except (Stop PublicationError) (List PeeledTag)) :=
  (Dialogue.question Query.tags).bind fun
    | .error e => .done (.error (.failed (.read e)))
    | .ok tags => PeeledTag.ofRefs limit tags

/-- The branches done so far. -/
structure Progress where
  ledger : Ledger := {}
  heads : NameMap HeadChange := ∅
  events : List Event := []

/-- Walks one branch after the other. Between branches `cancelled` is asked about the events so far. -/
def branches (cancelled : List Event → Bool) (isHead isTagged : ObjectId → Bool) (progress : Progress) :
    List (Request × ObjectId) → Reading (Progress × Except PublicationError Unit)
  | [] => .done (progress, .ok ())
  | (request, start) :: rest =>
    if cancelled progress.events then .done (progress, .error .cancelled)
    else
      let begun := progress.events ++ [.started ("Rewriting " ++ request.name) 1]
      (Walk.run (request.retention.selection isHead isTagged) progress.ledger start).bind fun (ledger, walked) =>
        match walked with
        -- The ledger keeps what the walk has settled before it failed.
        | .error e => .done ({ progress with ledger, events := begun }, .error (.walk e))
        | .ok _ =>
          match ledger.replacement start with
          | .error e => .done ({ progress with ledger, events := begun }, .error (.ledger e))
          | .ok replacement =>
            branches cancelled isHead isTagged
              { ledger
                heads := progress.heads.insert request.name ⟨request.retention, start, replacement.id⟩
                events := begun ++ [.advanced 1] } rest

/-- The events of the tag pass. -/
def tagEvents (count : Nat) : List Event :=
  .started "Retargeting tags" count :: (List.range count).map fun i => .advanced (i + 1)

/-- What all branches and tags come to. -/
def Progress.publish (progress : Progress) (tags : List PeeledTag) : Published :=
  let pass := TagPass.ofTags progress.ledger tags
  let kept := progress.ledger.kept
  { outcome :=
      { heads := progress.heads
        tags := pass.changes
        commits := (kept.filter fun (id, new) => new.id != id).map (·.2)
        tagObjects := pass.objects }
    commits := kept.foldl (fun commits (_, new) => commits.insert new.id new.commit) ∅ }

/-- A membership test for a list of ids. -/
def member (ids : List ObjectId) : ObjectId → Bool :=
  (Std.TreeSet.ofList ids).contains

/-- Resolves all requests, peels all tags and walks all branches: how far the branches came, and the tags that are
    left to retarget. Of each tag so many tag objects are read at most. -/
def walks (requests : List Request) (cancelled : List Event → Bool) (limit : Nat) :
    Reading (Progress × Except (Stop PublicationError) (List PeeledTag)) :=
  (starts requests).bind fun
    | .error e => .done ({}, .error (.failed e))
    | .ok starts => (peeledTags limit).bind fun
      | .error e => .done ({}, .error e)
      | .ok tags =>
        -- What counts as a head or as tagged is settled for all branches before the first is walked.
        let isHead := member starts
        let isTagged := member (tags.map (·.commit))
        (branches cancelled isHead isTagged {} (requests.zip starts)).bind fun (progress, walked) =>
          .done (progress, (walked.map fun () => tags).mapError .failed)

/-- Publishes the requests and tells what happened on the way. -/
def run (requests : List Request) (cancelled : List Event → Bool) (limit : Nat) :
    Reading (List Event × Except (Stop PublicationError) Published) :=
  (walks requests cancelled limit).bind fun (progress, walked) =>
    match walked with
    | .error e => .done (progress.events, .error e)
    | .ok tags => .done (progress.events ++ tagEvents tags.length, .ok (progress.publish tags))

end Publication

end PrunedHistory
