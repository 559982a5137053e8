import PrunedHistory.Proofs.Publication.Heads
import PrunedHistory.Proofs.Publication.Retargeting
import PrunedHistory.Proofs.Publication.Unchanged
import PrunedHistory.Proofs.Walk.Contraction

/-! Publishing what was published

    A repository that carries a publication has under each new id a commit with the new parents, its heads where the
    publication left them, and the tags that are retained. Its graph is then the contraction of the source. The request
    that first reaches a published commit is also the first to reach one of the commits that it replaces, namely the
    one it reaches itself; so the commit is kept a second time. Main statement: the same requests are published from
    there without a change. -/

namespace PrunedHistory

/-- The second tag is where the first one is afterwards. -/
def PeeledTag.Lands (l : Ledger) (p p' : PeeledTag) : Prop :=
  p'.tag.name = p.tag.name ∧ p.change? l = some ⟨p.tag.id, some p'.tag.id, some p'.commit⟩

/-- The second repository holds what is published from the first. -/
structure Repository.Carries (r r' : Repository) (limit : Nat) (requests : List Request) (heads : List ObjectId) (l : Ledger)
    (tags tags' : List PeeledTag) : Prop where
  resolved : requests.map r.head = heads.map .ok
  settled : Publication.Settled r (Publication.member heads) (Publication.member (tags.map (·.commit))) requests l
  addressed : r'.ContentAddressed
  loads : ∀ k new, l.find? k = some (.keep new) → ∃ commit, r'.Loads new.id commit ∧ commit.parents = new.commit.parents
  moved : ∀ q ∈ requests, ∀ head, r.head q = .ok head → r'.head q = .ok (l.after head)
  peeled : r'.run (Publication.peeledTags limit) = .ok tags'
  retained : ∀ p ∈ tags, ∀ new, l.find? p.commit = some (.keep new) → ∃ p' ∈ tags', p.Lands l p'
  listed : ∀ p' ∈ tags', ∃ p ∈ tags, p.Lands l p'

/-- The outcome of a second publication: heads and retained tags stay where the first one has left them, and nothing
    is new. -/
structure Outcome.Repeats (again o : Outcome) : Prop where
  heads : ∀ name, again.heads.get? name = (o.heads.get? name).map fun change => { change with before := change.after }
  tags : ∀ name, again.tags.get? name
    = (o.tags.get? name).bind fun change => change.after.map fun id => ⟨id, some id, change.commit⟩
  commits : again.commits = []
  tagObjects : again.tagObjects = []

theorem Ledger.Untouched.after_eq {l : Ledger} (h : l.Untouched) (id : ObjectId) : l.after id = id := by
  rw [after]
  split
  · rename_i new hkeep
    exact (h.eq_of_newId ⟨new, hkeep, rfl⟩).symm
  · rfl

namespace PeeledTag

variable {l : Ledger} {p p' : PeeledTag} {new : Replacement}

theorem Lands.exists_keep (h : p.Lands l p') : ∃ new, l.find? p.commit = some (.keep new) ∧ p'.commit = new.id := by
  obtain ⟨new, hkeep, hchange⟩ := exists_keep_of_change? h.2 rfl
  simp only [TagChange.mk.injEq, Option.some.injEq] at hchange
  exact ⟨new, hkeep, hchange.2.2⟩

theorem Lands.commit_eq (h : p.Lands l p') (hkeep : l.find? p.commit = some (.keep new)) : p'.commit = new.id := by
  obtain ⟨new', hkeep', hcommit⟩ := h.exists_keep
  rw [hkeep] at hkeep'
  cases hkeep'
  exact hcommit

/-- A tag on a commit that is kept under its own id stays. -/
theorem change?_of_untouched (h : l.Untouched) (hd : ∃ d, l.find? p.commit = some d) :
    p.change? l = some ⟨p.tag.id, some p.tag.id, some p.commit⟩ := by
  obtain ⟨d, hd⟩ := hd
  obtain ⟨new, rfl, hnew⟩ := h p.commit d hd
  rw [change?_of_keep hd, position, if_pos hnew, hnew]

end PeeledTag

namespace Repository.Carries

open Publication

variable {r r' : Repository} {limit : Nat} {requests : List Request} {l l' : Ledger} {tags tags' : List PeeledTag}
  {heads : List ObjectId} {q : Request} {head a x : ObjectId}

theorem draws (h : r.Carries r' limit requests heads l tags tags') : l.Draws r'.Parent := by
  intro k new hkeep y
  obtain ⟨commit, hload, hparents⟩ := h.loads k new hkeep
  rw [hload.parent_iff, hparents]

section

variable (h : r.Carries r' limit requests heads l tags tags')

include h

theorem exists_head (hq : q ∈ requests) : ∃ head, head ∈ heads ∧ r.head q = .ok head := by
  have hmem : r.head q ∈ heads.map .ok := h.resolved ▸ List.mem_map_of_mem hq
  obtain ⟨head, hmem, hhead⟩ := List.mem_map.1 hmem
  exact ⟨head, hmem, hhead.symm⟩

theorem mem_heads_iff : a ∈ heads ↔ ∃ q ∈ requests, r.head q = .ok a := by
  have hmem : a ∈ heads ↔ .ok a ∈ requests.map r.head := by
    rw [h.resolved]
    simp
  rw [hmem, List.mem_map]

theorem map_head : requests.map r'.head = (heads.map l.after).map .ok := by
  have hall : ∀ q ∈ requests, r'.head q = (r.head q).map l.after := by
    intro q hq
    obtain ⟨head, -, hhead⟩ := h.exists_head hq
    rw [h.moved q hq head hhead, hhead]
    rfl
  calc requests.map r'.head
      = (requests.map r.head).map (Except.map l.after) := by
        rw [List.map_map]
        exact List.map_congr_left hall
    _ = (heads.map l.after).map .ok := by
        rw [h.resolved, List.map_map, List.map_map]
        rfl

theorem exists_newId_head (hq : q ∈ requests) (hmem : head ∈ heads) (hhead : r.head q = .ok head) :
    ∃ x, l.NewId head x := by
  obtain ⟨new, hkeep⟩ := h.settled.exists_replacement hq hhead (member_iff.2 hmem)
  exact ⟨new.id, new, hkeep, rfl⟩

/-! ### What requests reach there -/

/-- What a request reaches in the source, it reaches where it is published. -/
theorem covers (hq : q ∈ requests) (hcovers : r.Covers q a) (ha : l.NewId a x) : r'.Covers q x := by
  obtain ⟨head, hhead, hreach⟩ := hcovers
  have hmem : head ∈ heads := h.mem_heads_iff.2 ⟨q, hq, hhead⟩
  obtain ⟨y, hy⟩ := h.exists_newId_head hq hmem hhead
  refine ⟨y, hy.after_eq ▸ h.moved q hq head hhead, ?_⟩
  rcases Relation.reflTransGen_iff_eq_or_transGen.1 hreach with rfl | hdescends
  · rw [ha.unique hy]
  · exact (h.draws.transGen_of_descends h.settled.sound hy ha hdescends).to_reflTransGen

/-- What a request reaches there is published for a commit that it reaches in the source. -/
theorem exists_covers (hq : q ∈ requests) (hcovers : r'.Covers q x) : ∃ a, r.Covers q a ∧ l.NewId a x := by
  obtain ⟨head, hmem, hhead⟩ := h.exists_head hq
  obtain ⟨y, hy⟩ := h.exists_newId_head hq hmem hhead
  have hhead' : r'.head q = .ok y := hy.after_eq ▸ h.moved q hq head hhead
  rw [covers_iff_of_head hhead'] at hcovers
  rcases Relation.reflTransGen_iff_eq_or_transGen.1 hcovers with rfl | hway
  · exact ⟨head, ⟨head, hhead, .refl⟩, hy⟩
  · obtain ⟨a, hdescends, ha⟩ := h.draws.exists_descends h.settled.sound hy hway
    exact ⟨a, ⟨head, hhead, hdescends.to_reflTransGen⟩, ha⟩

/-- The first request to reach a published commit is the first to reach the commit it is published for. -/
theorem firstCovers (hfirst : r'.FirstCovers requests q x) (hcovers : r.Covers q a) (ha : l.NewId a x) :
    r.FirstCovers requests q a := by
  obtain ⟨before, after, hsplit, -, hnone⟩ := hfirst
  refine ⟨before, after, hsplit, hcovers, fun b hb hearlier => hnone b hb ?_⟩
  have hmem : b ∈ requests := by
    rw [hsplit]
    exact List.mem_append_left _ hb
  exact h.covers hmem hearlier ha

theorem whole (hx : x ∈ heads.map l.after) : r'.Whole x := by
  obtain ⟨head, hmem, rfl⟩ := List.mem_map.1 hx
  obtain ⟨q, hq, hhead⟩ := h.mem_heads_iff.1 hmem
  have hnew : ∀ y, r'.Reaches (l.after head) y → ∃ a, l.NewId a y := by
    intro y hreach
    obtain ⟨a, -, ha⟩ := h.exists_covers hq ⟨_, h.moved q hq head hhead, hreach⟩
    exact ⟨a, ha⟩
  refine ⟨fun y hreach => ?_, fun y hreach => ?_⟩
  · obtain ⟨a, new, hkeep, rfl⟩ := hnew y hreach
    obtain ⟨commit, hload, -⟩ := h.loads a new hkeep
    exact ⟨commit, hload⟩
  · obtain ⟨a, ha⟩ := hnew y hreach
    exact h.draws.acyclic h.settled.sound ha

/-! ### What is decided there -/

variable (hsettled' : Settled r' (member (heads.map l.after)) (member (tags'.map (·.commit))) requests l')

include hsettled'

theorem exists_newId (hx : x ∈ l'.commits) :
    ∃ q ∈ requests, ∃ a, r'.FirstCovers requests q x ∧ r.Covers q a ∧ l.NewId a x := by
  obtain ⟨q, hfirst⟩ := exists_firstCovers ((hsettled'.mem_iff x).1 hx)
  obtain ⟨a, hcovers, ha⟩ := h.exists_covers hfirst.mem hfirst.covers
  exact ⟨q, hfirst.mem, a, hfirst, hcovers, ha⟩

/-- What was kept once is kept again, and nothing else is there. -/
theorem wasKept? (hx : x ∈ l'.commits) : l'.wasKept? x = some true := by
  obtain ⟨q, hq, a, hfirst', hcovers, ha⟩ := h.exists_newId hsettled' hx
  have hfirst := h.firstCovers hfirst' hcovers ha
  have hmem : a ∈ l.commits := (h.settled.mem_iff a).2 ⟨q, hq, hcovers⟩
  obtain ⟨new, hkeep, rfl⟩ := ha
  refine (hsettled'.kept_iff _ hx).2 ?_
  rcases (h.settled.kept_iff a hmem).1 (Ledger.wasKept?_eq_true_iff.2 ⟨new, hkeep⟩) with his | ⟨q', hfirst'', hasks⟩
  · have hafter : l.after a = new.id := Ledger.NewId.after_eq ⟨new, hkeep, rfl⟩
    exact .inl (member_iff.2 (hafter ▸ List.mem_map_of_mem (member_iff.1 his)))
  · obtain rfl := hfirst.unique hfirst''
    refine .inr ⟨q, hfirst', hasks.imp_right fun ⟨habbreviated, htagged⟩ => ⟨habbreviated, ?_⟩⟩
    obtain ⟨p, hp, rfl⟩ := List.mem_map.1 (member_iff.1 htagged)
    obtain ⟨p', hp', hlands⟩ := h.retained p hp new hkeep
    exact member_iff.2 (List.mem_map.2 ⟨p', hp', hlands.commit_eq hkeep⟩)

theorem untouched : l'.Untouched := by
  refine hsettled'.sound.untouched_of_addressed (fun id _ => h.addressed id) fun id hid x hreach => ?_
  have hx := hsettled'.sound.reached_mem hid hreach
  refine ⟨h.wasKept? hsettled' hx, fun commit hread => ?_⟩
  obtain ⟨q, -, a, -, -, new, hkeep, rfl⟩ := h.exists_newId hsettled' hx
  obtain ⟨found, hload, hparents⟩ := h.loads a new hkeep
  rw [Except.ok.inj (hread.symm.trans hload.1), hparents]
  exact h.settled.sound.nodup_parents hkeep

theorem exists_find?_of_tag {p' : PeeledTag} (hp' : p' ∈ tags') : ∃ d, l'.find? p'.commit = some d := by
  obtain ⟨p, hp, hlands⟩ := h.listed p' hp'
  obtain ⟨new, hkeep, hcommit⟩ := hlands.exists_keep
  obtain ⟨q, hq, hcovers⟩ := (h.settled.mem_iff p.commit).1 (h.settled.sound.mem_of_find? hkeep)
  rw [hcommit]
  exact hsettled'.sound.exists_find? ((hsettled'.mem_iff _).2
    ⟨q, hq, h.covers hq hcovers ⟨new, hkeep, rfl⟩⟩)

/-- The tags that the second publication reports are those that the first one retained. -/
theorem tags_repeat (hnames : ∀ p ∈ tags, ∀ q ∈ tags, p.tag.name = q.tag.name → p = q)
    (hnames' : ∀ p ∈ tags', ∀ q ∈ tags', p.tag.name = q.tag.name → p = q) (name : String) :
    (TagPass.ofTags l' tags').changes.get? name = ((TagPass.ofTags l tags).changes.get? name).bind fun change =>
      change.after.map fun id => ⟨id, some id, change.commit⟩ := by
  have huntouched := h.untouched hsettled'
  have hchange' : ∀ p' ∈ tags', p'.change? l' = some ⟨p'.tag.id, some p'.tag.id, some p'.commit⟩ := fun p' hp' =>
    PeeledTag.change?_of_untouched huntouched (h.exists_find?_of_tag hsettled' hp')
  ext change
  rw [TagPass.get?_changes_iff hnames', Option.bind_eq_some_iff]
  simp only [TagPass.get?_changes_iff hnames, Option.map_eq_some_iff]
  constructor
  · -- A tag of the second store is one the first publication left there, and it stays.
    rintro ⟨p', hp', rfl, hchange⟩
    rw [hchange' p' hp'] at hchange
    cases hchange
    obtain ⟨p, hp, hname, hlands⟩ := h.listed p' hp'
    exact ⟨_, ⟨p, hp, hname.symm, hlands⟩, p'.tag.id, rfl, rfl⟩
  · -- A tag the first publication kept is in the second store, under the id it was moved to.
    rintro ⟨before, ⟨p, hp, rfl, hbefore⟩, id, hafter, rfl⟩
    obtain ⟨new, hkeep, -⟩ := PeeledTag.exists_keep_of_change? hbefore hafter
    obtain ⟨p', hp', hname, hlands⟩ := h.retained p hp new hkeep
    rw [hbefore] at hlands
    cases hlands
    cases hafter
    exact ⟨p', hp', hname, hchange' p' hp'⟩

end

/-- The same requests are published from there without a change. -/
theorem repeats {progress : Progress} (h : r.Carries r' limit requests heads progress.ledger tags tags')
    (hentries : progress.heads = (∅ : NameMap HeadChange).insertAll ((requests.zip heads).map (headEntry progress.ledger)))
    (hnames : ∀ p ∈ tags, ∀ q ∈ tags, p.tag.name = q.tag.name → p = q)
    (hnames' : ∀ p ∈ tags', ∀ q ∈ tags', p.tag.name = q.tag.name → p = q) :
    ∃ again, r'.run (walks requests (fun _ => false) limit) = (again, .ok tags') ∧
      (again.publish tags').outcome.Repeats (progress.publish tags).outcome := by
  obtain ⟨again, hagain⟩ := exists_walks_of_whole (fun _ => rfl) h.map_head h.peeled fun x => h.whole
  obtain ⟨starts, hstarts, -, hdone', hentries'⟩ := walks_ok_cases hagain
  obtain rfl : heads.map progress.ledger.after = starts := by
    rw [h.map_head, List.map_inj_right fun _ _ => Except.ok.inj] at hstarts
    exact hstarts
  have huntouched := h.untouched hdone'.settled
  have hunchanged := hdone'.unchanged h.peeled huntouched
  refine ⟨again, hagain, fun name => ?heads, h.tags_repeat hdone'.settled hnames hnames', hunchanged.commits,
    hunchanged.tagObjects⟩
  case heads =>
    -- The second publication starts at the heads the first one ended at.
    have hmoved : (requests.zip (heads.map progress.ledger.after)).map (headEntry again.ledger)
        = ((requests.zip heads).map (headEntry progress.ledger)).map fun entry =>
            (entry.1, { entry.2 with before := entry.2.after }) := by
      rw [List.zip_map_right, List.map_map, List.map_map]
      refine List.map_congr_left fun job _ => ?_
      simp only [Function.comp_apply, headEntry, Prod.map, id_eq, huntouched.after_eq]
    change again.heads.get? name = (progress.heads.get? name).map _
    rw [hentries', hentries, hmoved]
    let left (change : HeadChange) : HeadChange := { change with before := change.after }
    exact NameMap.get?_insertAll_map left _ (m := ∅) (n := ∅) (fun _ => rfl) name

end Repository.Carries

end PrunedHistory
