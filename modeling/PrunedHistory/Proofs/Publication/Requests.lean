import PrunedHistory.Proofs.Repository.Ancestry
import PrunedHistory.Publication.Run

/-! What requests reach

    A request covers what its head reaches. Of several requests that cover a commit, the first one counts; that of a
    list followed by another is the first of the list, or, if there is none, the first of the other. -/

namespace PrunedHistory

/-- The commit that a request starts from. -/
def Repository.head (r : Repository) (q : Request) : Except ReadError ObjectId :=
  match q.start with
  | some id => .ok id
  | none => r.resolve q.name

/-- The commit that the request starts from reaches the given one. -/
def Repository.Covers (r : Repository) (q : Request) (id : ObjectId) : Prop :=
  ∃ head, r.head q = .ok head ∧ r.Reaches head id

/-- The first of the requests whose head reaches the commit. -/
def Repository.FirstCovers (r : Repository) (requests : List Request) (q : Request) (id : ObjectId) : Prop :=
  ∃ before after, requests = before ++ q :: after ∧ r.Covers q id ∧ ∀ b ∈ before, ¬r.Covers b id

variable {r : Repository} {q : Request} {id head : ObjectId}

namespace Repository

theorem covers_iff_of_head (h : r.head q = .ok head) : r.Covers q id ↔ r.Reaches head id := by
  constructor
  · rintro ⟨head', h', hreach⟩
    rw [h] at h'
    cases h'
    exact hreach
  · exact fun hreach => ⟨head, h, hreach⟩

theorem firstCovers_singleton {q' : Request} : r.FirstCovers [q] q' id ↔ q' = q ∧ r.Covers q id := by
  constructor
  · rintro ⟨before, after, hsplit, hcovers, -⟩
    have hmem : q' ∈ [q] := by
      rw [hsplit]
      simp
    obtain rfl := List.mem_singleton.1 hmem
    exact ⟨rfl, hcovers⟩
  · rintro ⟨rfl, hcovers⟩
    exact ⟨[], [], rfl, hcovers, by simp⟩

theorem exists_firstCovers : ∀ {requests : List Request}, (∃ q ∈ requests, r.Covers q id) →
    ∃ q, r.FirstCovers requests q id
  | b :: rest, ⟨q, hq, hcovers⟩ => by
      by_cases hb : r.Covers b id
      · exact ⟨b, [], rest, rfl, hb, by simp⟩
      · have hrest : q ∈ rest := by
          rcases List.mem_cons.1 hq with rfl | hq
          · exact absurd hcovers hb
          · exact hq
        obtain ⟨q', before, after, rfl, hcovers', hfirst⟩ := exists_firstCovers ⟨q, hrest, hcovers⟩
        refine ⟨q', b :: before, after, rfl, hcovers', fun b' hb' => ?_⟩
        rcases List.mem_cons.1 hb' with rfl | hb'
        · exact hb
        · exact hfirst b' hb'

theorem FirstCovers.mem {requests : List Request} (h : r.FirstCovers requests q id) : q ∈ requests := by
  obtain ⟨before, after, rfl, -⟩ := h
  simp

theorem FirstCovers.covers {requests : List Request} (h : r.FirstCovers requests q id) : r.Covers q id := by
  obtain ⟨before, after, -, hcovers, -⟩ := h
  exact hcovers

theorem FirstCovers.unique {requests : List Request} {q' : Request} (h : r.FirstCovers requests q id)
    (h' : r.FirstCovers requests q' id) : q = q' := by
  obtain ⟨before, after, hsplit, hcovers, hfirst⟩ := h
  obtain ⟨before', after', hsplit', hcovers', hfirst'⟩ := h'
  rw [hsplit] at hsplit'
  -- Were the two apart, the one further on would have the other among the requests before it.
  rcases List.append_eq_append_iff.1 hsplit' with ⟨between, rfl, hmore⟩ | ⟨between, rfl, hmore⟩
  · cases between with
    | nil => exact (List.cons.inj hmore).1
    | cons b between =>
      obtain ⟨rfl, -⟩ := List.cons.inj hmore
      exact absurd hcovers (hfirst' q (by simp))
  · cases between with
    | nil => exact (List.cons.inj hmore).1.symm
    | cons b between =>
      obtain ⟨rfl, -⟩ := List.cons.inj hmore
      exact absurd hcovers' (hfirst q' (by simp))

/-- The first of two lists of requests is asked before the second. -/
theorem firstCovers_append {requests more : List Request} : r.FirstCovers (requests ++ more) q id ↔
    r.FirstCovers requests q id ∨ ((∀ b ∈ requests, ¬r.Covers b id) ∧ r.FirstCovers more q id) := by
  constructor
  · rintro ⟨before, after, hsplit, hcovers, hfirst⟩
    rcases List.append_eq_append_iff.1 hsplit with ⟨between, rfl, hmore⟩ | ⟨between, rfl, hafter⟩
    · refine .inr ⟨fun b hb => hfirst b (List.mem_append_left _ hb), between, after, hmore, hcovers, fun b hb => ?_⟩
      exact hfirst b (List.mem_append_right _ hb)
    · -- The split lies within `requests`, or right at their end, where the first of `more` covers.
      rcases between with _ | ⟨q', between⟩
      · refine .inr ⟨fun b hb => hfirst b (by simpa using hb), [], after, hafter.symm, hcovers, by simp⟩
      · obtain ⟨rfl, -⟩ := List.cons.inj hafter
        exact .inl ⟨before, between, rfl, hcovers, hfirst⟩
  · rintro (⟨before, after, rfl, hcovers, hfirst⟩ | ⟨hnone, before, after, rfl, hcovers, hfirst⟩)
    · exact ⟨before, after ++ more, by simp, hcovers, hfirst⟩
    · refine ⟨requests ++ before, after, by simp, hcovers, fun b hb => ?_⟩
      rcases List.mem_append.1 hb with hb | hb
      · exact hnone b hb
      · exact hfirst b hb

/-- A request at the end changes nothing for a commit that is covered before. -/
theorem firstCovers_concat_of_covered {requests : List Request} {q' : Request} (h : ∃ b ∈ requests, r.Covers b id) :
    r.FirstCovers (requests ++ [q]) q' id ↔ r.FirstCovers requests q' id := by
  obtain ⟨b, hb, hcovers⟩ := h
  have hcovered : ¬∀ b ∈ requests, ¬r.Covers b id := fun hnone => hnone b hb hcovers
  simp only [firstCovers_append, hcovered, false_and, or_false]

theorem firstCovers_concat_of_uncovered {requests : List Request} {q' : Request} (h : ∀ b ∈ requests, ¬r.Covers b id) :
    r.FirstCovers (requests ++ [q]) q' id ↔ q' = q ∧ r.Covers q id := by
  have hearlier : ¬r.FirstCovers requests q' id := by
    rintro ⟨before, after, rfl, hcovers, -⟩
    exact h q' (by simp) hcovers
  rw [firstCovers_append, firstCovers_singleton, or_iff_right hearlier, and_iff_right h]

end Repository

namespace Publication

/-! ### The starts of a publication -/

theorem mapError_ok {ε ε' α : Type} (f : ε → ε') (a : α) : (Except.ok a : Except ε α).mapError f = .ok a :=
  rfl

theorem ok_of_toOption {ε α : Type} {e : Except ε α} {a : α} (h : e.toOption = some a) : e = .ok a := by
  cases e with
  | error e => cases h
  | ok found => exact congrArg Except.ok (Option.some.inj h)

theorem run_starts (r : Repository) : ∀ requests : List Request,
    r.run (starts requests) = (requests.mapM r.head).mapError .read
  | [] => rfl
  | ⟨name, retention, start⟩ :: rest => by
      have ih := run_starts r rest
      rw [starts, Repository.run_bind, List.mapM_cons]
      cases start with
      | some id =>
        simp only [Repository.head, Repository.run_done, Repository.run_bind, ih]
        cases rest.mapM r.head <;> rfl
      | none =>
        simp only [Repository.head]
        rw [Repository.run_bind, Repository.run_done, Repository.run_question, Repository.answer]
        cases r.resolve name with
        | error e => rfl
        | ok id =>
          simp only [mapError_ok, Repository.run_bind, Repository.run_done, ih]
          cases rest.mapM r.head <;> rfl

/-- The results come in the order of the elements. -/
theorem map_of_mapM {α β ε : Type} {f : α → Except ε β} : ∀ {xs : List α} {ys : List β},
    xs.mapM f = .ok ys → xs.map f = ys.map .ok
  | [], ys, h => by
      cases h
      rfl
  | x :: xs, ys, h => by
      rw [List.mapM_cons] at h
      cases hx : f x with
      | error e =>
        rw [hx] at h
        cases h
      | ok y =>
        cases hxs : xs.mapM f with
        | error e =>
          rw [hx, hxs] at h
          cases h
        | ok others =>
          rw [hx, hxs] at h
          cases h
          rw [List.map_cons, List.map_cons, hx, map_of_mapM hxs]

theorem mapM_of_map {α β ε : Type} {f : α → Except ε β} : ∀ {xs : List α} {ys : List β},
    xs.map f = ys.map .ok → xs.mapM f = .ok ys
  | [], [], _ => rfl
  | x :: xs, y :: ys, h => by
      obtain ⟨hx, hxs⟩ := List.cons.inj h
      rw [List.mapM_cons, hx, mapM_of_map hxs]
      rfl

/-- An error is that of an element. -/
theorem error_of_mapM {α β ε : Type} {f : α → Except ε β} {e : ε} : ∀ {xs : List α},
    xs.mapM f = .error e → ∃ x ∈ xs, f x = .error e
  | [], h => by cases h
  | x :: xs, h => by
      rw [List.mapM_cons] at h
      cases hx : f x with
      | error e' =>
        rw [hx] at h
        cases h
        exact ⟨x, List.mem_cons_self, hx⟩
      | ok y =>
        cases hxs : xs.mapM f with
        | error e' =>
          rw [hx, hxs] at h
          cases h
          obtain ⟨x', hmem, hx'⟩ := error_of_mapM hxs
          exact ⟨x', List.mem_cons_of_mem x hmem, hx'⟩
        | ok ys =>
          rw [hx, hxs] at h
          cases h

theorem mem_zip_of_map_head {requests : List Request} {heads : List ObjectId}
    (h : requests.map r.head = heads.map .ok) : ∀ job ∈ requests.zip heads, r.head job.1 = .ok job.2 := by
  intro job hjob
  obtain ⟨n, hn, rfl⟩ := List.mem_iff_getElem.1 hjob
  have hget := congrArg (·[n]?) h
  simp only [List.length_zip, Nat.lt_min] at hn
  simpa [hn.1, hn.2] using hget

end Publication

end PrunedHistory
