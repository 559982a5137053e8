import PrunedHistory.Object.Tag
import PrunedHistory.Proofs.Object.Encoding

/-! What is filed under an id

    The frame that is hashed names the kind up to the first space, and the body starts after its first zero byte. A
    body determines what it points at: the tree and the parents of a commit, the object of a tag and its kind. Main
    statement: where the digest does not collide, objects with equal ids are of one kind and have equal bodies. -/

namespace PrunedHistory

theorem ObjectKind.ofName?_name (kind : ObjectKind) : ofName? kind.name = some kind := by
  cases kind <;> rfl

/-- No kind has one of the two characters that its name is followed by. -/
theorem ObjectKind.mark_not_mem_name (kind : ObjectKind) {mark : Char} (h : mark = ' ' ∨ mark = '\n') :
    mark ∉ kind.name.toList := by
  rcases h with rfl | rfl <;> cases kind <;> decide

/-- A name ends at the first mark that is not in it. -/
theorem Text.eq_of_append_mark {mark : Char} {xs ys after after' : List Char} (hx : mark ∉ xs) (hy : mark ∉ ys)
    (h : xs ++ mark :: after = ys ++ mark :: after') : xs = ys := by
  have hcut (zs more : List Char) (hz : mark ∉ zs) : (zs ++ mark :: more).takeWhile (· != mark) = zs := by
    rw [List.takeWhile_append_of_pos fun c hc => ?_, List.takeWhile_cons_of_neg (by simp), List.append_nil]
    have hne : c ≠ mark := fun he => hz (he ▸ hc)
    simpa using hne
  rw [← hcut xs after hx, h, hcut ys after' hy]

theorem Text.eq_of_utf8 {s t : String} (h : s.toUTF8.data.toList = t.toUTF8.data.toList) : s = t := by
  have hbytes : s.toUTF8 = t.toUTF8 := ByteArray.ext (Array.toList_inj.1 h)
  rwa [String.toUTF8_eq_toByteArray, String.toUTF8_eq_toByteArray, String.toByteArray_inj] at hbytes

namespace ObjectId

/-- The kind stands before the first space. -/
theorem kind_of_framed {kind other : ObjectKind} {body body' : ByteArray} (h : framed kind body = framed other body') :
    kind = other := by
  -- Up to the first zero byte the framed object is its header, and the header begins with the kind's name.
  have hframe (k : ObjectKind) (b : ByteArray) : (framed k b).takeWhile (· != 0)
      = (k.name ++ " " ++ .ofList (Decimal.ofNat b.size)).toUTF8.data.toList := by
    rw [framed, List.takeWhile_append_of_pos fun byte hbyte => ?_]
    · simp
    · have hne : byte ≠ 0 := fun he => zero_not_mem_frame k b.size (he ▸ hbyte)
      simpa using hne
  have hchars (k : ObjectKind) (b : ByteArray) : (k.name ++ " " ++ .ofList (Decimal.ofNat b.size)).toList
      = k.name.toList ++ ' ' :: Decimal.ofNat b.size := by
    simp
  have hbytes := (hframe kind body).symm.trans (h ▸ hframe other body')
  have htext := congrArg String.toList (Text.eq_of_utf8 hbytes)
  rw [hchars, hchars] at htext
  have hname := Text.eq_of_append_mark (kind.mark_not_mem_name (.inl rfl)) (other.mark_not_mem_name (.inl rfl)) htext
  have hkind := kind.ofName?_name
  rw [String.toList_inj.1 hname, other.ofName?_name] at hkind
  exact (Option.some.inj hkind).symm

/-- The digest does not collide on the given objects. -/
def CollisionFree (hashed : ObjectKind → ByteArray → Prop) : Prop :=
  ∀ kind body other body', hashed kind body → hashed other body' →
    Sha1.digest (framed kind body) = Sha1.digest (framed other body') → framed kind body = framed other body'

theorem CollisionFree.mono {hashed some : ObjectKind → ByteArray → Prop} (h : CollisionFree hashed)
    (hsome : ∀ kind body, some kind body → hashed kind body) : CollisionFree some :=
  fun kind body other body' hbody hbody' => h kind body other body' (hsome kind body hbody) (hsome other body' hbody')

/-- Equal ids are those of one object. -/
theorem CollisionFree.eq_of_ofBody {hashed : ObjectKind → ByteArray → Prop} (h : CollisionFree hashed)
    {kind other : ObjectKind} {body body' : ByteArray} (hbody : hashed kind body) (hbody' : hashed other body')
    (hid : ofBody kind body = ofBody other body') : kind = other ∧ body = body' := by
  have hframed := h kind body other body' hbody hbody' (ObjectId.mk.inj hid)
  obtain rfl := kind_of_framed hframed
  exact ⟨rfl, framed_injective hframed⟩

end ObjectId

/-! ### What a body points at -/

theorem Commit.tree_of_body {c d : Commit} (h : c.body = d.body) : c.tree = d.tree := by
  rw [body, body, String.toUTF8_eq_toByteArray, String.toUTF8_eq_toByteArray, String.toByteArray_inj, text, text,
    String.ofList_inj, bodyChars_eq, bodyChars_eq, Header.chars_of_id, Header.chars_of_id] at h
  have hline := (List.append_inj h (by simp)).1
  exact ObjectId.chars_injective (by simpa using hline)

namespace Tag

/-- What follows the kind. -/
def rest (t : Tag) : List Char :=
  (⟨"tag", t.name⟩ :: (t.tagger.toList.map fun s => ⟨"tagger", s.text⟩) ++ t.extra : List Header).flatMap Header.chars
    ++ '\n' :: t.message.toList

theorem bodyChars_eq (t : Tag) : Header.bodyChars t.headers t.message =
    Header.chars ⟨"object", t.object.text⟩ ++ ("type ".toList ++ (t.kind.name.toList ++ '\n' :: t.rest)) := by
  have htype : Header.chars ⟨"type", t.kind.name⟩ = "type ".toList ++ (t.kind.name.toList ++ ['\n']) := by
    rw [Header.chars, Header.fold_of_newline_not_mem (t.kind.mark_not_mem_name (.inr rfl))]
    simp
  rw [Header.bodyChars, headers, List.cons_append, List.cons_append, List.flatMap_cons, List.flatMap_cons, htype]
  simp [rest]

/-- A tag object with the same encoding is on the same object, of the same kind. -/
theorem target_of_body {t u : Tag} (h : t.body = u.body) : t.object = u.object ∧ t.kind = u.kind := by
  rw [body, body, String.toUTF8_eq_toByteArray, String.toUTF8_eq_toByteArray, String.toByteArray_inj, text, text,
    String.ofList_inj, bodyChars_eq, bodyChars_eq, Header.chars_of_id, Header.chars_of_id] at h
  obtain ⟨hobject, hrest⟩ := List.append_inj h (by simp)
  have hkind := Text.eq_of_append_mark (t.kind.mark_not_mem_name (.inr rfl)) (u.kind.mark_not_mem_name (.inr rfl))
    (List.append_cancel_left hrest)
  have hname := t.kind.ofName?_name
  rw [String.toList_inj.1 hkind, u.kind.ofName?_name] at hname
  exact ⟨ObjectId.chars_injective (by simpa using hobject), (Option.some.inj hname).symm⟩

end Tag

end PrunedHistory
