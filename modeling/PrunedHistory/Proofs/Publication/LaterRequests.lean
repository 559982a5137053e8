import PrunedHistory.Proofs.Publication.Comparison
import PrunedHistory.Proofs.Publication.Limits
import PrunedHistory.Proofs.Publication.ListedTags

/-! Later requests

    The heads of later requests are kept by earlier walks too, so a later request does count for an earlier one that
    reaches its head. One that does not is never met: the earlier branches are done as if they were alone, and the
    later ones go on where they end, on a ledger that keeps what it holds and under names of their own. Main statement:
    requests whose heads are out of reach of the earlier ones leave all that these come to as it is. -/

namespace PrunedHistory.Publication

variable {r : Repository} {requests more : List Request} {tags tags' : List PeeledTag} {heads heads' : List ObjectId}
  {isHead isTagged : ObjectId → Bool} {progress progress' : Progress} {cancelled cancelled' : List Event → Bool}
  {limit limit' : Nat} {id : ObjectId}

/-- No head of the later requests is covered by an earlier one. -/
def Apart (r : Repository) (requests more : List Request) : Prop :=
  ∀ q ∈ more, ∀ head, r.head q = .ok head → ∀ b ∈ requests, ¬r.Covers b head

/-- What the earlier requests cover is a head for all of them together only if it is one for the earlier. -/
theorem Apart.member_eq (h : Apart r requests more) (hheads : requests.map r.head = heads.map .ok)
    (hheads' : (requests ++ more).map r.head = heads'.map .ok) (hid : ∃ b ∈ requests, r.Covers b id) :
    member heads' id = member heads id := by
  obtain ⟨b, hb, hcovers⟩ := hid
  rw [Bool.eq_iff_iff, member_iff, member_iff, heads_eq_map_start hheads, heads_eq_map_start hheads', List.map_append,
    List.mem_append, or_iff_left]
  intro hmore
  obtain ⟨q, hq, rfl⟩ := List.mem_map.1 hmore
  exact h q hq _ (head_of_resolved hheads' q (List.mem_append_right _ hq)) b hb hcovers

/-- Branches of resolved requests that are all done. -/
theorem done_of_branches (hjobs : ∀ job ∈ r.jobs requests, r.head job.1 = .ok job.2 ∧ isHead job.2 = true)
    (h : r.run (branches cancelled isHead isTagged {} (r.jobs requests)) = (progress, .ok ())) :
    Done r isHead isTagged requests progress := by
  have hnothing : Done r isHead isTagged [] {} := done_nothing
  have hdone := hnothing.branches hjobs h
  rwa [List.nil_append, map_fst_jobs_start] at hdone

/-- A publication of more requests goes on where one without them ends. -/
theorem Apart.exists_continuation (h : Apart r requests more)
    (hwalks : r.run (walks requests cancelled limit) = (progress, .ok tags))
    (hwalks' : r.run (walks (requests ++ more) cancelled' limit') = (progress', .ok tags')) :
    tags' = tags ∧ ∃ isHead isTagged, Done r isHead isTagged requests progress ∧
      (∀ job ∈ r.jobs more, r.head job.1 = .ok job.2 ∧ isHead job.2 = true) ∧
      r.run (branches (fun _ => false) isHead isTagged progress (r.jobs more)) = (progress', .ok ()) := by
  obtain ⟨heads, hheads, hpeeled, hbranches⟩ := branches_of_walks hwalks
  obtain ⟨heads', hheads', hpeeled', hbranches'⟩ := branches_of_walks hwalks'
  obtain rfl : tags' = tags := peeledTags_unique hpeeled' hpeeled
  have hjobs := head_of_job hheads'
  rw [zip_heads hheads', jobs_append] at hbranches' hjobs
  obtain ⟨middle, hfirst, hrest⟩ := branches_append_eq_ok_iff.1 (branches_uncancelled hbranches')
  -- The earlier branches meet the same commits in both, and no head of a later one.
  have hmet : ∀ job ∈ r.jobs requests, ∀ a, r.Reaches job.2 a → MetAlike r r (member heads)
      (member (tags'.map (·.commit))) (member heads') (member (tags'.map (·.commit))) a := by
    intro job hjob a ha
    have hhead := (hjobs job (List.mem_append_left _ hjob)).1
    exact ⟨rfl, h.member_eq hheads hheads' ⟨job.1, (mem_jobs_iff.1 hjob).1, job.2, hhead, ha⟩, rfl⟩
  have halike := branches_alike (fun _ => false) {} hmet
  rw [← zip_heads hheads, branches_uncancelled hbranches, zip_heads hheads, hfirst] at halike
  obtain rfl : middle = progress := (Prod.mk.inj halike).1
  exact ⟨rfl, _, _, done_of_branches (fun job hjob => hjobs job (List.mem_append_left _ hjob)) hfirst,
    fun job hjob => hjobs job (List.mem_append_right _ hjob), hrest⟩

/-- Requests whose heads no earlier request covers disturb nothing: with them registered after the others, every earlier
    request has the head that it has without them, every tag of a covered commit changes as it does without them, and
    the new commits start with those that there are without them. -/
theorem later_requests_disturb_nothing (r : Repository) (requests more : List Request) (s s' : Session)
    (refs : List TagRef) (cancelled cancelled' : List Event → Bool) (limit limit' : Nat) (outcome outcome' : Outcome)
    (hs : Session.ofRequests requests = .ok s) (hs' : Session.ofRequests (requests ++ more) = .ok s')
    (hrefs : r.tags = .ok refs) (hlisted : (refs.map TagRef.name).Nodup) (hapart : Apart r requests more)
    (houtcome : (r.run (s.execute cancelled limit)).2.2 = .ok outcome)
    (houtcome' : (r.run (s'.execute cancelled' limit')).2.2 = .ok outcome') :
    (∀ q ∈ requests, ∃ change, outcome.heads.get? q.name = some change ∧ outcome'.heads.get? q.name = some change) ∧
    (∀ tag ∈ refs, ∀ chain commit, r.Peels tag chain commit → (∃ q ∈ requests, r.Covers q commit) →
      ∃ change, outcome.tags.get? tag.name = some change ∧ outcome'.tags.get? tag.name = some change) ∧
    outcome.commits <+: outcome'.commits := by
  obtain ⟨-, rfl⟩ := Session.ofRequests_eq_ok_iff.1 hs
  obtain ⟨hnames, rfl⟩ := Session.ofRequests_eq_ok_iff.1 hs'
  obtain ⟨progress, tags, hwalks, rfl⟩ := execute_ok_cases houtcome
  obtain ⟨progress', tags', hwalks', rfl⟩ := execute_ok_cases houtcome'
  obtain ⟨_, -, hpeeled, -⟩ := branches_of_walks hwalks
  obtain ⟨rfl, isHead, isTagged, hdone, hjobs, hrest⟩ := hapart.exists_continuation hwalks hwalks'
  obtain ⟨hextends, hheads⟩ := heads_of_branches hdone hjobs hrest
  refine ⟨fun q hq => ?heads, fun tag htag chain commit hpeels hcovered => ?tags, ?commits⟩
  case heads =>
    obtain ⟨change, hchange⟩ := hdone.named q hq
    refine ⟨change, hchange, ?_⟩
    change progress'.heads.get? q.name = some change
    rw [hheads]
    refine NameMap.get?_insertAll (.inr hchange) fun other hother => ?_
    -- The later branches are entered under other names.
    obtain ⟨job, hjob, hentry⟩ := List.mem_map.1 hother
    have hname : job.1.name = q.name := (Prod.mk.inj hentry).1
    rw [List.map_append, List.nodup_append] at hnames
    exact absurd hname.symm (hnames.2.2 _ (List.mem_map_of_mem hq) _ (List.mem_map_of_mem (mem_jobs_iff.1 hjob).1))
  case tags =>
    have hp : ⟨tag, chain, commit⟩ ∈ tags' := (mem_peeledTags_iff_of_tags hrefs hpeeled).2 ⟨htag, hpeels⟩
    have honce := eq_of_listed_once hrefs hlisted hpeeled
    obtain ⟨d, hd⟩ := hdone.settled.sound.exists_find? ((hdone.settled.mem_iff commit).2 hcovered)
    obtain ⟨change, hchange⟩ := (PeeledTag.exists_change?_iff (p := ⟨tag, chain, commit⟩)).2 ⟨d, hd⟩
    have hchange' := (PeeledTag.change?_congr ((hextends _ _ hd).trans hd.symm)).trans hchange
    exact ⟨change, TagPass.get?_changes_of_tag honce hp hchange, TagPass.get?_changes_of_tag honce hp hchange'⟩
  case commits =>
    rw [commits_publish, commits_publish]
    exact (branches_keep_entries hdone.settled.sound.indexed hrest).filterMap _

theorem fork_left_undisturbed :
    ∃ s s' refs outcome outcome', Session.ofRequests [forkLeft] = .ok s ∧
      Session.ofRequests ([forkLeft] ++ [forkRight]) = .ok s' ∧ fork.tags = .ok refs ∧
      (refs.map TagRef.name).Nodup ∧ Apart fork [forkLeft] [forkRight] ∧
      (fork.run (s.execute (fun _ => false) 0)).2.2 = .ok outcome ∧
      (fork.run (s'.execute (fun _ => false) 0)).2.2 = .ok outcome' ∧
      (∃ change, outcome.heads.get? "refs/heads/left" = some change ∧
        outcome'.heads.get? "refs/heads/left" = some change) ∧
      (∃ change, outcome.tags.get? "refs/tags/v1" = some change ∧ outcome'.tags.get? "refs/tags/v1" = some change) ∧
      outcome.commits <+: outcome'.commits := by
  have hs : Session.ofRequests [forkLeft] = .ok { requests := [forkLeft] } :=
    Session.ofRequests_eq_ok_iff.2 ⟨by decide, rfl⟩
  have hs' : Session.ofRequests ([forkLeft] ++ [forkRight]) = .ok { requests := [forkLeft] ++ [forkRight] } :=
    Session.ofRequests_eq_ok_iff.2 ⟨by decide, rfl⟩
  -- The right head is not on the left side of the fork.
  have hapart : Apart fork [forkLeft] [forkRight] := by
    rintro q hq head hhead b hb hcovers
    obtain rfl := List.mem_singleton.1 hq
    obtain rfl := List.mem_singleton.1 hb
    obtain rfl : ⟨4⟩ = head := Except.ok.inj hhead
    have hstart : fork.head forkLeft = .ok ⟨3⟩ := rfl
    have hreach := (Repository.covers_iff_of_head hstart).1 hcovers
    exact absurd (Repository.mem_of_reaches [⟨1⟩, ⟨2⟩, ⟨3⟩] (by decide) (by decide) hreach) (by decide)
  obtain ⟨progress, hwalks⟩ := exists_walks_of_fork 0 [forkLeft] [⟨3⟩] rfl (by decide)
  obtain ⟨progress', hwalks'⟩ := exists_walks_of_fork 0 ([forkLeft] ++ [forkRight]) [⟨3⟩, ⟨4⟩] rfl (by decide)
  have houtcome := execute_of_walks (s := { requests := [forkLeft] }) rfl hwalks
  have houtcome' := execute_of_walks (s := { requests := [forkLeft] ++ [forkRight] }) rfl hwalks'
  have hnames : ([TagRef.lightweight "refs/tags/v1" ⟨2⟩].map TagRef.name).Nodup := by decide
  have hline : fork.Parent ⟨3⟩ ⟨2⟩ := ⟨_, rfl, List.mem_cons_self⟩
  obtain ⟨hheads, htags, hcommits⟩ := later_requests_disturb_nothing fork [forkLeft] [forkRight] _ _ _ _ _ _ _ _ _
    hs hs' rfl hnames hapart houtcome houtcome'
  exact ⟨_, _, _, _, _, hs, hs', rfl, hnames, hapart, houtcome, houtcome', hheads forkLeft (by simp),
    htags _ List.mem_cons_self [] ⟨2⟩ .lightweight ⟨forkLeft, List.mem_cons_self, ⟨3⟩, rfl, .single hline⟩, hcommits⟩

end PrunedHistory.Publication
