import PrunedHistory.Proofs.Object.CommitGrammar
import PrunedHistory.Proofs.Object.Framing
import PrunedHistory.Proofs.Object.TagGrammar
import PrunedHistory.Proofs.Repository.Ancestry

/-! What an id stands for

    An id is the digest of a frame from which kind and body are read back, and a body determines what it points at even
    where it does not determine the object. Main statement: two objects share an id only where the digest collides, and
    a commit with other parents has another body. -/

namespace PrunedHistory

/-- Two texts of bytes that the digest does not tell apart. -/
def Sha1.Collides (bytes other : List UInt8) : Prop := bytes ≠ other ∧ digest bytes = digest other

namespace ObjectId

variable {kind other : ObjectKind} {body body' : ByteArray}

theorem framed_inj : framed kind body = framed other body' ↔ kind = other ∧ body = body' := by
  constructor
  · intro h
    obtain rfl := kind_of_framed h
    exact ⟨rfl, framed_injective h⟩
  · rintro ⟨rfl, rfl⟩
    rfl

/-- Objects share an id if they are one object, or if the digest collides on their frames. -/
theorem ofBody_eq_iff : ofBody kind body = ofBody other body' ↔
    (kind = other ∧ body = body') ∨ Sha1.Collides (framed kind body) (framed other body') := by
  rw [ofBody, ofBody, mk.injEq, Sha1.Collides, Ne, framed_inj]
  by_cases hsame : kind = other ∧ body = body'
  · obtain ⟨rfl, rfl⟩ := hsame
    simp
  · simp [hsame]

end ObjectId

/-- A body is that of one well-formed tag. -/
theorem Tag.WellFormed.eq_of_body {t u : Tag} (ht : t.WellFormed) (hu : u.WellFormed) (h : t.body = u.body) :
    t = u := by
  have hread := Tag.parse_body_iff.2 ht
  rw [h, Tag.parse_body_iff.2 hu] at hread
  exact (Except.ok.inj hread).symm

theorem Commit.body_with_parents_iff {c : Commit} {parents : List ObjectId} :
    { c with parents }.body = c.body ↔ parents = c.parents := by
  constructor
  · intro h
    exact parents_of_body h
  · rintro rfl
    rfl

/-- The frames of two objects differ in kind or body as the objects do, so a shared id is a collision of the digest. Of
    the well-formed commits, and of the well-formed tags, each body belongs to one. Any two commits with one body have
    the same tree and the same parents, and no other parents leave a commit its body. -/
theorem ids_tell_objects_apart :
    (∀ kind body other body', ObjectId.framed kind body = ObjectId.framed other body' ↔ kind = other ∧ body = body') ∧
    (∀ kind body other body', ObjectId.ofBody kind body = ObjectId.ofBody other body' ↔
      (kind = other ∧ body = body') ∨
        Sha1.Collides (ObjectId.framed kind body) (ObjectId.framed other body')) ∧
    (∀ c d : Commit, c.WellFormed → d.WellFormed → c.body = d.body → c = d) ∧
    (∀ t u : Tag, t.WellFormed → u.WellFormed → t.body = u.body → t = u) ∧
    (∀ c d : Commit, c.body = d.body → c.tree = d.tree ∧ c.parents = d.parents) ∧
    ∀ (c : Commit) parents, { c with parents }.body = c.body ↔ parents = c.parents :=
  ⟨fun _ _ _ _ => ObjectId.framed_inj, fun _ _ _ _ => ObjectId.ofBody_eq_iff, fun _ _ => Commit.WellFormed.eq_of_body,
    fun _ _ => Tag.WellFormed.eq_of_body, fun _ _ h => ⟨Commit.tree_of_body h, Commit.parents_of_body h⟩,
    fun _ _ => Commit.body_with_parents_iff⟩

/-- A commit with two headers after its committer. -/
def partedHeaders : Commit := { Repository.bare [⟨1⟩, ⟨1⟩] with extra := [⟨"x", "y"⟩, ⟨"z", "w"⟩] }

/-- The same lines as a single header, whose key holds a line break. -/
def joinedHeaders : Commit := { Repository.bare [⟨1⟩, ⟨1⟩] with extra := [⟨"x y\nz", "w"⟩] }

theorem ids_tell_headers_apart :
    joinedHeaders ≠ partedHeaders ∧ joinedHeaders.tree = partedHeaders.tree ∧
    joinedHeaders.parents = partedHeaders.parents ∧ { joinedHeaders with parents := [⟨1⟩] }.body ≠ joinedHeaders.body ∧
    partedHeaders.body ≠ { partedHeaders with extra := partedHeaders.extra.reverse }.body ∧
    Tag.patchwork.body ≠ { Tag.patchwork with name := "" }.body ∧
    ObjectId.framed .tree partedHeaders.body ≠ ObjectId.framed .tag partedHeaders.body := by
  obtain ⟨hframes, -, hcommits, htags, hpoints, hparents⟩ := ids_tell_objects_apart
  have hsame : joinedHeaders.body = partedHeaders.body := rfl
  obtain ⟨htree, hlist⟩ := hpoints joinedHeaders partedHeaders hsame
  refine ⟨by decide, htree, hlist, fun h => ?_, fun h => ?_, fun h => ?_, fun h => ?_⟩
  · exact absurd ((hparents joinedHeaders [⟨1⟩]).1 h) (by decide)
  · exact absurd (hcommits _ _ (by decide) (by decide) h) (by decide)
  · exact absurd (htags _ _ (by decide) (by decide) h) (by decide)
  · exact absurd ((hframes _ _ _ _).1 h).1 (by decide)

end PrunedHistory
