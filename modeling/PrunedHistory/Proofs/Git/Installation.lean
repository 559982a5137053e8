import Mathlib.Data.List.DropRight
import PrunedHistory.Git.Tables
import PrunedHistory.Proofs.Git.Reading
import PrunedHistory.Proofs.Object.Framing
import PrunedHistory.Proofs.Object.HeaderGrammar
import PrunedHistory.Proofs.Object.Spelling

/-! Git with tables behind it

    An installation of git has a state of its own, and that state holds tables of objects and refs. Main statement:
    where git answers reads from these tables, work that reads the repository comes to what it is on the tables, and
    leaves them as they are. -/

namespace PrunedHistory.Git

/-- How git responds to a call in a state, and the tables that a state holds. -/
structure Installation (σ : Type) where
  respond : σ → (call : Call) → Answer call × σ
  tables : σ → Tables

/-- The program ran and ended with a status that is not zero. -/
def Refuses (answer : Except String Reply) : Prop := ∃ reply, answer = .ok reply ∧ reply.succeeded = false

namespace Installation

variable {α β σ : Type} {git : Installation σ} {c : Checkout} {s : σ} {id : ObjectId} {kind : ObjectKind}
  {args : List String} {text : String}

/-- The result of some work, and the state afterwards. -/
def serve (git : Installation σ) (work : Calling α) (s : σ) : α × σ := Dialogue.serve git.respond work s

/-- What git answers to arguments without an input. -/
def answer (git : Installation σ) (c : Checkout) (s : σ) (args : List String) : Except String Reply :=
  (git.respond s ⟨c.root, args, none⟩).1

/-- Reads are answered from the tables and leave them as they are. Where there is nothing to tell, the run fails; for a
    ref that is missing it may as well not start. -/
structure ReadsTables (git : Installation σ) (c : Checkout) : Prop where
  kept : ∀ s call, call.Reads → git.tables (git.respond s call).2 = git.tables s
  body : ∀ s (id : ObjectId) o, (git.tables s).objects[id]? = some o →
    git.answer c s ["cat-file", o.kind.name, id.text] = .ok ⟨0, o.body⟩
  noBody : ∀ s (kind : ObjectKind) (id : ObjectId), (∀ o, (git.tables s).objects[id]? = some o → o.kind ≠ kind) →
    Refuses (git.answer c s ["cat-file", kind.name, id.text])
  kind : ∀ s (id : ObjectId) o, (git.tables s).objects[id]? = some o →
    git.answer c s ["cat-file", "-t", id.text] = .ok (.success (o.kind.name ++ "\n"))
  noKind : ∀ s (id : ObjectId), (git.tables s).objects[id]? = none →
    Refuses (git.answer c s ["cat-file", "-t", id.text])
  ref : ∀ s name id, (git.tables s).refs.get? name = some id →
    git.answer c s ["rev-parse", "--verify", "--quiet", name] = .ok (.success (id.text ++ "\n"))
  noRef : ∀ s name, (git.tables s).refs.get? name = none →
    ∀ reply, git.answer c s ["rev-parse", "--verify", "--quiet", name] = .ok reply → reply.succeeded = false
  tags : ∀ s lines, ((git.tables s).refsUnder "refs/tags/").mapM (fun (name, id) => (git.tables s).refLine? name id)
      = some lines →
    git.answer c s ["for-each-ref", "--format=%(objectname) %(objecttype) %(refname)", "refs/tags/"]
      = .ok (.success (String.join lines))
  noTags : ∀ s,
    ((git.tables s).refsUnder "refs/tags/").mapM (fun (name, id) => (git.tables s).refLine? name id) = none →
    Refuses (git.answer c s ["for-each-ref", "--format=%(objectname) %(objecttype) %(refname)", "refs/tags/"])

end Installation

/-! ### A repository from tables -/

namespace Tables

/-- The body of an object of a kind. -/
def body (t : Tables) (kind : ObjectKind) (id : ObjectId) : Except ReadError ByteArray :=
  match t.objects[id]? with
  | some o => if o.kind = kind then .ok o.body else .error (.wrongKind id kind o.kind)
  | none => .error (.missingObject id)

/-- The answers that the tables give to the questions that a history is read by. -/
def repository (t : Tables) : Repository where
  commit id := (t.body .commit id).bind fun body => (Commit.parse body).mapError (.undecodable id)
  tag id := (t.body .tag id).bind fun body => (Tag.parse body).mapError (.undecodable id)
  hasTree id := .ok (t.objects[id]?.any (·.kind = .tree))
  resolve name :=
    match t.refs.get? name with
    | some id => .ok id
    | none => .error (.unknownRef name)
  tags :=
    match (t.refsUnder "refs/tags/").mapM fun (name, id) => t.refLine? name id with
    | some lines => Checkout.tagsOfListing (String.join lines)
    | none => .error (.failed "git for-each-ref --format=%(objectname) %(objecttype) %(refname) refs/tags/")

theorem repository_tags_of_lines {t : Tables} {lines : List String}
    (h : (t.refsUnder "refs/tags/").mapM (fun (name, id) => t.refLine? name id) = some lines) :
    t.repository.tags = Checkout.tagsOfListing (String.join lines) := by
  simp only [repository, h]

end Tables

/-! ### What git prints -/

theorem ofBytes_toByteArray (text : String) : Text.ofBytes text.toByteArray = text := by
  rw [Text.ofBytes, Header.fromUTF8?_eq_some_iff.2 text.toUTF8_eq_toByteArray.symm]

@[simp] theorem ofBytes_success (text : String) : Text.ofBytes (Reply.success text).output = text := by
  rw [Reply.success, text.toUTF8_eq_toByteArray, ofBytes_toByteArray]

theorem trimBy_concat {α : Type} {drop : α → Bool} {a : α} (ha : drop a = true) :
    ∀ {l : List α}, (∀ b ∈ l, drop b = false) → Text.trimBy drop (l ++ [a]) = l
  | [], _ => by simp [Text.trimBy, ha]
  | b :: l, h => by
      have hfirst : (b :: l ++ [a]).dropWhile drop = b :: l ++ [a] := List.dropWhile_cons_of_neg (by simp [h])
      have hlast : (b :: l).rdropWhile drop = b :: l :=
        List.rdropWhile_eq_self_iff.2 fun hne => by simpa using h _ (List.getLast_mem hne)
      rw [Text.trimBy, hfirst]
      exact (List.rdropWhile_concat_pos drop _ a ha).trans hlast

/-- A line is read without its break. -/
theorem trim_line {text : String} (h : ∀ ch ∈ text.toList, Text.isBlank ch = false) :
    Text.trim (text ++ "\n") = text := by
  rw [Text.trim, String.toList_append]
  change String.ofList (Text.trimBy _ (text.toList ++ ['\n'])) = text
  rw [trimBy_concat (by decide) h, String.ofList_toList]

theorem not_isBlank_of_mem_chars (id : ObjectId) : ∀ ch ∈ id.chars, Text.isBlank ch = false := by
  intro ch hch
  have hall : ∀ n < 128, (Hex.value? (.ofNat n)).isSome → Text.isBlank (.ofNat n) = false := by decide
  obtain ⟨d, hd⟩ :=
    Option.isSome_iff_exists.1 (Hex.isSome_value?_of_mem_digitsOnto 40 id.bits.toNat [] (by simp) ch hch)
  have hblank := hall ch.toNat (Hex.toNat_lt_of_value? hd)
  rw [Char.ofNat_toNat, hd] at hblank
  exact hblank rfl

@[simp] theorem trim_id (id : ObjectId) : Text.trim (id.text ++ "\n") = id.text :=
  trim_line (by rw [ObjectId.text, String.toList_ofList]; exact not_isBlank_of_mem_chars id)

@[simp] theorem trim_kind (kind : ObjectKind) : Text.trim (kind.name ++ "\n") = kind.name := by
  have hall : kind.name.toList.all (!Text.isBlank ·) = true := by cases kind <;> decide
  exact trim_line (by simpa using hall)

theorem is_tree_line (kind : ObjectKind) :
    (Text.trimBy Text.isBlankByte (kind.name ++ "\n").toUTF8.data.toList == "tree".toUTF8.data.toList)
      = decide (kind = .tree) := by
  cases kind <;> decide

/-! ### Reads, one question at a time -/

namespace Installation

variable {α β σ : Type} {git : Installation σ} {c : Checkout} {s : σ} {args : List String}

/-- The state after a run without an input. -/
def after (git : Installation σ) (c : Checkout) (s : σ) (args : List String) : σ :=
  (git.respond s ⟨c.root, args, none⟩).2

@[simp] theorem serve_done (git : Installation σ) (a : α) (s : σ) : git.serve (.done a) s = (a, s) := rfl

@[simp] theorem serve_bind (git : Installation σ) (work : Calling α) (next : α → Calling β) (s : σ) :
    git.serve (work.bind next) s = git.serve (next (git.serve work s).1) (git.serve work s).2 :=
  Dialogue.serve_bind ..

/-- The state after calls, whatever they are answered. -/
def afterAll (git : Installation σ) (s : σ) (calls : List Call) : σ :=
  calls.foldl (fun s call => (git.respond s call).2) s

/-- An installation behaves as its state makes it, which the calls so far have led to. -/
def behaviour (git : Installation σ) (s : σ) : Behaviour := fun calls call =>
  (git.respond (git.afterAll s calls) call).1

theorem exists_play_behaviour {git : Installation σ} {s s' : σ} : ∀ (work : Calling α) {before : List Call},
    git.afterAll s before = s' →
    ∃ calls, (git.behaviour s).play work before = ((git.serve work s').1, calls) ∧
      git.afterAll s calls = (git.serve work s').2
  | .done _, before, h => ⟨before, rfl, h⟩
  | .ask call next, before, h => by
      subst h
      exact exists_play_behaviour (next (git.behaviour s before call)) (List.foldl_concat ..)

theorem serve_run (git : Installation σ) (c : Checkout) (args : List String) (s : σ) :
    git.serve (Checkout.run c.root args) s
      = ((git.answer c s args).mapError fun text => .notStarted ("git " ++ args.headD "" ++ ": " ++ text),
        git.after c s args) := rfl

theorem serve_output_of_success {text : String} (h : git.answer c s args = .ok (.success text)) :
    git.serve (c.output args) s = (.ok text, git.after c s args) := by
  have hsucceeded : (Reply.success text).succeeded = true := rfl
  rw [Checkout.output, serve_bind, serve_run, h]
  simp [Except.mapError, hsucceeded]

theorem serve_output_of_refuses (h : Refuses (git.answer c s args)) :
    git.serve (c.output args) s = (.error (.failed ("git " ++ " ".intercalate args)), git.after c s args) := by
  obtain ⟨reply, hreply, hfails⟩ := h
  rw [Checkout.output, serve_bind, serve_run, hreply]
  simp [Except.mapError, hfails]

/-- Without a reply of success there is no text. -/
theorem exists_serve_output (h : ∀ reply, git.answer c s args = .ok reply → reply.succeeded = false) :
    ∃ e, git.serve (c.output args) s = (.error e, git.after c s args) := by
  cases hanswer : git.answer c s args with
  | error text =>
    rw [Checkout.output, serve_bind, serve_run, hanswer]
    exact ⟨_, rfl⟩
  | ok reply => exact ⟨_, serve_output_of_refuses ⟨reply, hanswer, h reply hanswer⟩⟩

/-- A question is answered by the tables, which stay as they are. -/
def Tells (git : Installation σ) (s : σ) (work : Calling α) (answer : Tables → α) : Prop :=
  (git.serve work s).1 = answer (git.tables s) ∧ git.tables (git.serve work s).2 = git.tables s

namespace ReadsTables

variable (h : git.ReadsTables c)

include h

theorem tables_after (s : σ) (args : List String) (hreads : Call.Reads ⟨c.root, args, none⟩) :
    git.tables (git.after c s args) = git.tables s :=
  h.kept s _ hreads

/-- Work that only reads leaves the tables as they are. -/
theorem tables_serve : ∀ {work : Calling α}, work.Asks Call.Reads → ∀ s, git.tables (git.serve work s).2 = git.tables s
  | .done _, _, _ => rfl
  | .ask call _, ⟨hcall, hnext⟩, s => (tables_serve (hnext _) _).trans (h.kept s call hcall)

/-- An object that cannot be read is of another kind or missing, which the tables tell too. -/
theorem serve_absence {kind : ObjectKind} {id : ObjectId}
    (hnone : ∀ o, (git.tables s).objects[id]? = some o → o.kind ≠ kind) :
    .error (git.serve (c.absence kind id) s).1 = (git.tables s).body kind id ∧
      git.tables (git.serve (c.absence kind id) s).2 = git.tables s := by
  have hkept := h.tables_after s ["cat-file", "-t", id.text] (by simp [Call.Reads])
  rw [Checkout.absence, serve_bind, Tables.body]
  cases hfound : (git.tables s).objects[id]? with
  | none =>
    rw [serve_output_of_refuses (h.noKind s id hfound)]
    exact ⟨rfl, hkept⟩
  | some o =>
    rw [serve_output_of_success (h.kind s id o hfound)]
    refine ⟨?_, hkept⟩
    simp only [serve_done, Except.toOption, Option.bind_some, trim_kind, ObjectKind.ofName?_name]
    rw [if_neg (hnone o hfound)]

theorem tells_body (kind : ObjectKind) (id : ObjectId) (s : σ) : git.Tells s (c.body kind id) (·.body kind id) := by
  have hkept := h.tables_after s ["cat-file", kind.name, id.text] (by simp [Call.Reads])
  rw [Tells, Checkout.body, serve_bind, serve_run]
  -- Without an object of the kind, the refusal is followed by the question which kind there is.
  by_cases hnone : ∀ o, (git.tables s).objects[id]? = some o → o.kind ≠ kind
  · obtain ⟨reply, hreply, hfails⟩ := h.noBody s kind id hnone
    have habsence := h.serve_absence (hkept.symm ▸ hnone)
    rw [hkept] at habsence
    simp only [hreply, Except.mapError, hfails, Bool.false_eq_true, if_false, serve_bind, serve_done]
    exact habsence
  · push Not at hnone
    obtain ⟨o, hfound, rfl⟩ := hnone
    simp only [h.body s id o hfound, Except.mapError, Reply.succeeded, beq_self_eq_true, if_true, serve_done,
      Tables.body, hfound, true_and]
    exact hkept

theorem tells_hasTree (id : ObjectId) (s : σ) : git.Tells s (c.hasTree id) (·.repository.hasTree id) := by
  have hkept := h.tables_after s ["cat-file", "-t", id.text] (by simp [Call.Reads])
  rw [Tells, Checkout.hasTree, serve_bind, serve_run, serve_done, Tables.repository]
  refine ⟨?_, hkept⟩
  cases hfound : (git.tables s).objects[id]? with
  | none =>
    obtain ⟨reply, hreply, hfails⟩ := h.noKind s id hfound
    simp [hreply, Except.mapError, Except.map, hfails, hfound]
  | some o =>
    simp only [h.kind s id o hfound, Except.mapError, Except.map, Reply.success, is_tree_line, hfound]
    rfl

theorem tells_resolve (name : String) (s : σ) : git.Tells s (c.resolve name) (·.repository.resolve name) := by
  have hkept := h.tables_after s ["rev-parse", "--verify", "--quiet", name] (by simp [Call.Reads])
  rw [Tells, Checkout.resolve, serve_bind, Tables.repository]
  cases hfound : (git.tables s).refs.get? name with
  | some id =>
    rw [serve_output_of_success (h.ref s name id hfound)]
    refine ⟨?_, hkept⟩
    simp [Except.toOption, hfound]
  | none =>
    obtain ⟨e, hserve⟩ := exists_serve_output (h.noRef s name hfound)
    rw [hserve]
    refine ⟨?_, hkept⟩
    simp [Except.toOption, hfound]

theorem tells_tags (s : σ) : git.Tells s c.tags (·.repository.tags) := by
  have hkept := h.tables_after s
    ["for-each-ref", "--format=%(objectname) %(objecttype) %(refname)", "refs/tags/"] (by simp [Call.Reads])
  rw [Tells, Checkout.tags, serve_bind, Tables.repository]
  cases hlines : ((git.tables s).refsUnder "refs/tags/").mapM fun (name, id) => (git.tables s).refLine? name id with
  | some lines =>
    rw [serve_output_of_success (h.tags s lines hlines)]
    refine ⟨?_, hkept⟩
    simp [Except.bind]
  | none =>
    rw [serve_output_of_refuses (h.noTags s hlines)]
    refine ⟨?_, hkept⟩
    simp [Except.bind]

theorem tells_answer (q : Query) (s : σ) : git.Tells s (c.answer q) (·.repository.answer q) := by
  cases q with
  | commit id =>
    obtain ⟨hbody, hkept⟩ := h.tells_body .commit id s
    rw [Tells, Checkout.answer, Checkout.commit, serve_bind, hbody]
    exact ⟨rfl, hkept⟩
  | tag id =>
    obtain ⟨hbody, hkept⟩ := h.tells_body .tag id s
    rw [Tells, Checkout.answer, Checkout.tag, serve_bind, hbody]
    exact ⟨rfl, hkept⟩
  | hasTree id => exact h.tells_hasTree id s
  | resolve name => exact h.tells_resolve name s
  | tags => exact h.tells_tags s

/-- Work that reads the repository comes to what it is on the tables. -/
theorem tells_read (work : Reading α) (s : σ) : git.Tells s (c.read work) (·.repository.run work) :=
  Dialogue.serve_interpret (I := fun s' => git.tables s' = git.tables s)
    (fun q s' hs' => by
      obtain ⟨hanswer, hkept⟩ := h.tells_answer q s'
      rw [hs'] at hanswer hkept
      exact ⟨hanswer, hkept⟩) work rfl

end ReadsTables

/-! ### Git that is its tables -/

/-- Every call is answered from the tables, and the state is nothing else. -/
def ofTables : Installation Tables where
  respond t call :=
    let (reply, t) := t.respond call.args (call.input.getD .empty)
    (.ok reply, t)
  tables t := t

theorem respond_ofTables (t : Tables) (call : Call) : ofTables.respond t call
    = (.ok (t.respond call.args (call.input.getD .empty)).1, (t.respond call.args (call.input.getD .empty)).2) := rfl

@[simp] theorem tables_ofTables (t : Tables) : ofTables.tables t = t := rfl

theorem object?_text (t : Tables) (id : ObjectId) : t.object? id.text = t.objects[id]? := by
  rw [Tables.object?, ObjectId.text, String.toList_ofList, ObjectId.ofChars?_chars, Option.bind_some]

theorem respond_of_reads (t : Tables) (input : ByteArray)
    (hreads : args.head? ∈ ["rev-parse", "cat-file", "for-each-ref"].map some) :
    (t.respond args input).2 = t := by
  unfold Tables.respond
  split <;> first | with_reducible rfl | simp at hreads

theorem respond_cat_file (t : Tables) (kind : ObjectKind) (id : ObjectId) (input : ByteArray) :
    (t.respond ["cat-file", kind.name, id.text] input).1
      = Tables.onlyIf 128 (t.objects[id]?.filter (·.kind.name == kind.name)) fun o => ⟨0, o.body⟩ := by
  rw [← object?_text, Tables.respond]
  cases kind <;> decide

theorem name_injective {kind other : ObjectKind} (h : kind.name = other.name) : kind = other := by
  rw [← Option.some.injEq, ← kind.ofName?_name, h, other.ofName?_name]

theorem ofTables_readsTables (c : Checkout) : ofTables.ReadsTables c where
  kept t call hreads := respond_of_reads t _ hreads
  body t id o hfound := by
    replace hfound : t.objects[id]? = some o := hfound
    change Except.ok (Tables.respond t _ _).1 = _
    rw [respond_cat_file, hfound, Option.filter_some, beq_self_eq_true, if_pos rfl]
    rfl
  noBody t kind id hnone := by
    refine ⟨_, rfl, ?_⟩
    have hfilter : t.objects[id]?.filter (·.kind.name == kind.name) = none :=
      Option.filter_eq_none_iff.2 fun o hfound hname => hnone o hfound (name_injective (beq_iff_eq.1 hname))
    change (Tables.respond t _ _).1.succeeded = false
    rw [respond_cat_file, hfilter]
    rfl
  kind t id o hfound := by
    replace hfound : t.objects[id]? = some o := hfound
    change Except.ok (Tables.onlyIf 128 (t.object? id.text) _) = _
    rw [object?_text, hfound]
    rfl
  noKind t id hnone := by
    replace hnone : t.objects[id]? = none := hnone
    refine ⟨Tables.onlyIf 128 (t.object? id.text) _, rfl, ?_⟩
    rw [object?_text, hnone]
    rfl
  ref t name id hfound := by
    replace hfound : t.refs.get? name = some id := hfound
    change Except.ok (Tables.onlyIf 1 (t.refs.get? name) _) = _
    rw [hfound]
    rfl
  noRef t name hnone := by
    replace hnone : t.refs.get? name = none := hnone
    rintro reply ⟨⟩
    rw [hnone]
    rfl
  tags t lines hlines := by
    replace hlines : (t.refsUnder "refs/tags/").mapM (fun (name, id) => t.refLine? name id) = some lines := hlines
    change Except.ok (Tables.onlyIf 128 ((t.refsUnder "refs/tags/").mapM fun (name, id) => t.refLine? name id) _) = _
    rw [hlines]
    rfl
  noTags t hnone := by
    replace hnone : (t.refsUnder "refs/tags/").mapM (fun (name, id) => t.refLine? name id) = none := hnone
    refine ⟨Tables.onlyIf 128 ((t.refsUnder "refs/tags/").mapM fun (name, id) => t.refLine? name id) _, rfl, ?_⟩
    rw [hnone]
    rfl

end Installation

end PrunedHistory.Git
