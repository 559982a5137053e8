import PrunedHistory.Object.Commit

/-! What an encoding determines

    Each layer of the text that is hashed for a commit can be cut apart again: the frame ends at the first zero byte,
    the tree line and every parent line have a fixed width, and what follows the parents does not start like one.
    Main statement: where the digest does not collide, commits with equal ids have equal parents. -/

namespace PrunedHistory

theorem Hex.isSome_value?_of_mem_digitsOnto : ∀ (count n : Nat) (after : List Char),
    (∀ c ∈ after, (value? c).isSome) → ∀ c ∈ digitsOnto count n after, (value? c).isSome
  | 0, _, _, h => h
  | count + 1, n, after, h => by
      refine isSome_value?_of_mem_digitsOnto count (n / 16) _ fun c hc => ?_
      rcases List.mem_cons.1 hc with rfl | hc
      · rw [value?_digitChar (Nat.mod_lt n (by decide))]
        rfl
      · exact h c hc

/-! ### The frame -/

/-- Characters from 1 to 127 are encoded without a zero byte. -/
theorem Text.zero_not_mem_utf8 {cs : List Char} (h : ∀ c ∈ cs, 0 < c.toNat ∧ c.toNat < 128) :
    0 ∉ (String.ofList cs).toUTF8.data.toList := by
  rw [String.toUTF8_eq_toByteArray, String.toByteArray_ofList, List.utf8Encode, List.toList_data_toByteArray]
  intro hmem
  obtain ⟨c, hc, hbyte⟩ := List.mem_flatMap.1 hmem
  obtain ⟨hpos, hlt⟩ := h c hc
  have hsize : c.utf8Size = 1 := by
    rw [Char.utf8Size_eq_one_iff, UInt32.le_iff_toNat_le]
    exact Nat.le_of_lt_succ hlt
  rw [String.utf8EncodeChar_eq_singleton hsize, List.mem_singleton] at hbyte
  have hzero : 0 = c.toNat % 256 := congrArg UInt8.toNat hbyte
  omega

theorem Text.toNat_of_isDigit {c : Char} (h : c.isDigit = true) : 0 < c.toNat ∧ c.toNat < 128 := by
  simp only [Char.isDigit, ge_iff_le, Bool.and_eq_true, decide_eq_true_eq, UInt32.le_iff_toNat_le] at h
  have hzero : '0'.val.toNat = 48 := rfl
  have hnine : '9'.val.toNat = 57 := rfl
  rw [Char.toNat]
  omega

namespace ObjectId

theorem zero_not_mem_frame (kind : ObjectKind) (size : Nat) :
    0 ∉ (kind.name ++ " " ++ .ofList (Decimal.ofNat size)).toUTF8.data.toList := by
  have hchars : kind.name ++ " " ++ .ofList (Decimal.ofNat size)
      = .ofList (kind.name.toList ++ ' ' :: Decimal.ofNat size) := by
    rw [← String.toList_inj]
    simp
  have hname : kind.name.toList.all (fun c => 0 < c.toNat ∧ c.toNat < 128) = true := by
    cases kind <;> rfl
  rw [hchars]
  refine Text.zero_not_mem_utf8 fun c hc => ?_
  rcases List.mem_append.1 hc with hc | hc
  · simpa using List.all_eq_true.1 hname c hc
  · rcases List.mem_cons.1 hc with rfl | hc
    · decide
    · exact Text.toNat_of_isDigit (List.all_eq_true.1 (Decimal.all_isDigit_ofNat size) c hc)

/-- The body starts after the first zero byte. -/
theorem framed_injective {kind : ObjectKind} {body other : ByteArray} (h : framed kind body = framed kind other) :
    body = other := by
  have hafter (b : ByteArray) : ((framed kind b).dropWhile (· != 0)).tail = b.data.toList := by
    rw [framed, List.dropWhile_append_of_pos fun byte hbyte => ?_]
    · rfl
    · have hne : byte ≠ 0 := fun he => zero_not_mem_frame kind b.size (he ▸ hbyte)
      simpa using hne
  have hlist : body.data.toList = other.data.toList := by rw [← hafter, ← hafter, h]
  exact ByteArray.ext (Array.toList_inj.1 hlist)

/-! ### Ids in headers -/

theorem chars_injective {id other : ObjectId} (h : id.chars = other.chars) : id = other :=
  Option.some.inj (by rw [← ofChars?_chars id, h, ofChars?_chars])

theorem newline_not_mem_chars (id : ObjectId) : '\n' ∉ id.chars := by
  intro h
  have hvalue := Hex.isSome_value?_of_mem_digitsOnto 40 id.bits.toNat [] (by simp) '\n' h
  revert hvalue
  decide

end ObjectId

theorem Header.fold_of_newline_not_mem : ∀ {cs : List Char}, '\n' ∉ cs → fold cs = cs
  | [], _ => rfl
  | c :: cs, h => by
      obtain ⟨hc, hcs⟩ := List.ne_and_not_mem_of_not_mem_cons h
      rw [fold, if_neg hc.symm, fold_of_newline_not_mem hcs]

/-- A header that holds an id is one line, as wide as its key and forty-two characters. -/
theorem Header.chars_of_id (key : String) (id : ObjectId) :
    Header.chars ⟨key, id.text⟩ = key.toList ++ ' ' :: id.chars ++ ['\n'] := by
  rw [Header.chars, ObjectId.text, String.toList_ofList, fold_of_newline_not_mem id.newline_not_mem_chars]

/-! ### The body of a commit -/

namespace Commit

def parentLines (parents : List ObjectId) : List Char := parents.flatMap fun p => Header.chars ⟨"parent", p.text⟩

/-- What follows the parents. -/
def rest (c : Commit) : List Char :=
  Header.chars ⟨"author", c.author.text⟩ ++
    ((⟨"committer", c.committer.text⟩ :: c.extra).flatMap Header.chars ++ '\n' :: c.message.toList)

theorem bodyChars_eq (c : Commit) : Header.bodyChars c.headers c.message =
    Header.chars ⟨"tree", c.tree.text⟩ ++ (parentLines c.parents ++ c.rest) := by
  simp [Header.bodyChars, headers, parentLines, rest, List.flatMap_map]

theorem head?_rest (c : Commit) : c.rest.head? = some 'a' := by
  simp [rest, Header.chars]

theorem head?_parentLines (p : ObjectId) (ps : List ObjectId) (after : List Char) :
    (parentLines (p :: ps) ++ after).head? = some 'p' := by
  simp [parentLines, Header.chars]

/-- The parents are read off up to a line that starts with another letter. -/
theorem parents_of_parentLines {s t : List Char} (hs : s.head? = some 'a') (ht : t.head? = some 'a') :
    ∀ {ps qs : List ObjectId}, parentLines ps ++ s = parentLines qs ++ t → ps = qs
  | [], [], _ => rfl
  | [], q :: qs, h => by
      rw [show s = _ from h, head?_parentLines] at hs
      cases hs
  | p :: ps, [], h => by
      rw [show t = _ from h.symm, head?_parentLines] at ht
      cases ht
  | p :: ps, q :: qs, h => by
      rw [parentLines, parentLines, List.flatMap_cons, List.flatMap_cons, List.append_assoc, List.append_assoc,
        Header.chars_of_id, Header.chars_of_id] at h
      -- Every parent line has the same length, so the two first lines are cut off alike.
      obtain ⟨hline, hrest⟩ := List.append_inj h (by simp)
      have hid : p.chars = q.chars := by simpa using hline
      rw [ObjectId.chars_injective hid, parents_of_parentLines hs ht hrest]

theorem parents_of_body {c d : Commit} (h : c.body = d.body) : c.parents = d.parents := by
  rw [body, body, String.toUTF8_eq_toByteArray, String.toUTF8_eq_toByteArray, String.toByteArray_inj, text, text,
    String.ofList_inj, bodyChars_eq, bodyChars_eq, Header.chars_of_id, Header.chars_of_id] at h
  have hrest := (List.append_inj h (by simp)).2
  exact parents_of_parentLines c.head?_rest d.head?_rest hrest

/-- The digest does not collide on the texts that are hashed for the given commits. -/
def CollisionFree (involved : Commit → Prop) : Prop :=
  ∀ c d, involved c → involved d →
    Sha1.digest (ObjectId.framed .commit c.body) = Sha1.digest (ObjectId.framed .commit d.body) →
    ObjectId.framed .commit c.body = ObjectId.framed .commit d.body

theorem digest_eq_of_id {c d : Commit} (h : c.id = d.id) :
    Sha1.digest (ObjectId.framed .commit c.body) = Sha1.digest (ObjectId.framed .commit d.body) := ObjectId.mk.inj h

/-- Equal ids are those of one body. -/
theorem CollisionFree.body_eq {involved : Commit → Prop} (h : CollisionFree involved) {c d : Commit}
    (hc : involved c) (hd : involved d) (hid : c.id = d.id) : c.body = d.body :=
  ObjectId.framed_injective (h c d hc hd (digest_eq_of_id hid))

/-- Equal ids come from equal parents. -/
theorem CollisionFree.parents_eq {involved : Commit → Prop} (h : CollisionFree involved) {c d : Commit}
    (hc : involved c) (hd : involved d) (hid : c.id = d.id) : c.parents = d.parents :=
  parents_of_body (h.body_eq hc hd hid)

end Commit

end PrunedHistory
