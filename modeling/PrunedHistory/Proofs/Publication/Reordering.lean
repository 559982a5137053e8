import PrunedHistory.Proofs.Publication.Comparison

/-! Requests in another order

    Which request comes to a commit first counts only if their retentions differ. Where all are the same, a commit is
    kept if it is a head or if that one retention asks for it, whoever comes first; so the ledgers of two orders hold
    the same, each in an order of its own, and the tags see no difference. The second order succeeds because the first
    one has recorded whole histories. Main statement: requests of one retention may be registered in any order. -/

namespace PrunedHistory

namespace Publication

variable {r : Repository} {isHead isTagged : ObjectId → Bool} {requests permuted : List Request} {l l' : Ledger}
  {id : ObjectId} {retention : Retention} {heads heads' : List ObjectId}

/-- With one retention for all, it does not count which request is first. -/
theorem Settled.kept_iff_of_same (h : Settled r isHead isTagged requests l)
    (hsame : ∀ q ∈ requests, q.retention = retention) (hid : id ∈ l.commits) :
    l.wasKept? id = some true ↔
      isHead id = true ∨ retention = .full ∨ (retention = .abbreviated ∧ isTagged id = true) := by
  rw [h.kept_iff id hid]
  refine or_congr_right ⟨?_, fun hasks => ?_⟩
  · rintro ⟨q, hfirst, hasks⟩
    rwa [hsame q hfirst.mem] at hasks
  · obtain ⟨q, hfirst⟩ := Repository.exists_firstCovers ((h.mem_iff id).1 hid)
    exact ⟨q, hfirst, by rwa [hsame q hfirst.mem]⟩

/-- Both orders end with ledgers that hold the same. -/
theorem Settled.find?_eq_of_perm (h : Settled r (member heads) isTagged requests l)
    (h' : Settled r (member heads') isTagged permuted l') (hperm : requests.Perm permuted) (hheads : heads.Perm heads')
    (hsame : ∀ q ∈ requests, q.retention = retention) (id : ObjectId) : l'.find? id = l.find? id := by
  have hmem : ∀ a, a ∈ l'.commits ↔ a ∈ l.commits := by
    intro a
    rw [h.mem_iff, h'.mem_iff]
    simp only [hperm.mem_iff]
  have hsame' : ∀ q ∈ permuted, q.retention = retention := fun q hq => hsame q (hperm.mem_iff.2 hq)
  -- With one retention for all, which request reaches a commit first does not matter: it is kept for its shape, or as
  -- a head, or never.
  have hkept : ∀ a ∈ l.commits, l'.wasKept? a = l.wasKept? a := by
    intro a ha
    have hhead : member heads' a = true ↔ member heads a = true := by
      rw [member_iff, member_iff, hheads.mem_iff]
    have hiff : l'.wasKept? a = some true ↔ l.wasKept? a = some true := by
      rw [h.kept_iff_of_same hsame ha, h'.kept_iff_of_same hsame' ((hmem a).2 ha), hhead]
    obtain ⟨d, hd⟩ := h.sound.exists_find? ha
    obtain ⟨d', hd'⟩ := h'.sound.exists_find? ((hmem a).2 ha)
    rw [Ledger.wasKept?, Ledger.wasKept?, hd, hd', Option.map_some, Option.map_some] at hiff ⊢
    rw [Option.some.injEq, Option.some.injEq, ← Bool.eq_iff_iff] at hiff
    rw [hiff]
  by_cases hid : id ∈ l.commits
  · exact h.sound.find?_eq_of_wasKept? h'.sound hkept id hid
  · have hnone : ∀ {ledger : Ledger}, ledger.Sound r → id ∉ ledger.commits → ledger.find? id = none := by
      intro ledger hsound hout
      rw [Option.eq_none_iff_forall_ne_some]
      exact fun d hd => hout (hsound.mem_of_find? hd)
    rw [hnone h.sound hid, hnone h'.sound fun h => hid ((hmem id).1 h)]

/-- Requests of distinct names and of one retention may be registered in any order: if they are published in one order,
    they are in every other, with the same heads, the same tags, the same list of new tag objects, and the same new
    commits in some order. -/
theorem order_of_equal_retentions_is_immaterial (r : Repository) (retention : Retention)
    (requests permuted : List Request) (hperm : requests.Perm permuted) (hnames : (requests.map (·.name)).Nodup)
    (hsame : ∀ q ∈ requests, q.retention = retention) :
    ∃ s s', Session.ofRequests requests = .ok s ∧ Session.ofRequests permuted = .ok s' ∧
      ∀ limit outcome, (r.run (s.execute (fun _ => false) limit)).2.2 = .ok outcome →
        ∃ outcome', (r.run (s'.execute (fun _ => false) limit)).2.2 = .ok outcome' ∧ outcome'.heads = outcome.heads ∧
          outcome'.tags = outcome.tags ∧ outcome'.tagObjects = outcome.tagObjects ∧
          outcome'.commits.Perm outcome.commits := by
  have hnames' : (permuted.map (·.name)).Nodup := (hperm.map _).nodup_iff.1 hnames
  refine ⟨{ requests }, { requests := permuted }, Session.ofRequests_eq_ok_iff.2 ⟨hnames, rfl⟩,
    Session.ofRequests_eq_ok_iff.2 ⟨hnames', rfl⟩, fun limit outcome houtcome => ?_⟩
  obtain ⟨progress, tags, hwalks, rfl⟩ := execute_ok_cases houtcome
  obtain ⟨heads, hheads, hpeeled, hdone, hentries⟩ := walks_ok_cases hwalks
  -- The other order starts from the same commits, whose histories are whole.
  have hstart := head_of_resolved hheads
  have hheads' : permuted.map r.head = (permuted.map r.start).map .ok :=
    map_head_of_start fun q hq => hstart q (hperm.mem_iff.2 hq)
  have hpermHeads : heads.Perm (permuted.map r.start) := heads_eq_map_start hheads ▸ hperm.map r.start
  have hwhole : ∀ head ∈ permuted.map r.start, r.Whole head := by
    intro head hhead
    obtain ⟨q, hq, rfl⟩ := List.mem_map.1 hhead
    have hq' : q ∈ requests := hperm.mem_iff.2 hq
    exact hdone.settled.sound.whole ((hdone.settled.mem_iff _).2 ⟨q, hq', r.start q, hstart q hq', .refl⟩)
  obtain ⟨progress', hwalks'⟩ := exists_walks_of_whole (fun _ => rfl) hheads' hpeeled hwhole
  obtain ⟨starts, hstarts, -, hdone', hentries'⟩ := walks_ok_cases hwalks'
  obtain rfl := (heads_eq_map_start hstarts).symm
  -- Its ledger holds the same.
  have hfind := hdone.settled.find?_eq_of_perm hdone'.settled hperm hpermHeads hsame
  have hafter : headEntry progress'.ledger = headEntry progress.ledger := by
    funext job
    rw [headEntry, headEntry, Ledger.after, Ledger.after, hfind]
  have htags : TagPass.ofTags progress'.ledger tags = TagPass.ofTags progress.ledger tags :=
    ofTags_alike fun p _ => hfind p.commit
  refine ⟨_, execute_of_walks rfl hwalks', ?heads, congrArg TagPass.changes htags, congrArg TagPass.objects htags,
    ?commits⟩
  case heads =>
    change progress'.heads = progress.heads
    rw [hentries, hentries', hafter, zip_heads hheads, zip_heads hheads']
    have hpermJobs : (r.jobs requests).Perm (r.jobs permuted) := hperm.map _
    refine (NameMap.insertAll_perm ?_ (hpermJobs.map _)).symm
    rw [List.map_map, Repository.jobs, List.map_map]
    exact hnames
  case commits =>
    rw [commits_publish, commits_publish]
    exact (Ledger.entries_perm hdone.settled.sound.indexed hdone'.settled.sound.indexed hfind).filterMap _

theorem orders_of_fork :
    [forkLeft, forkRight].Perm [forkRight, forkLeft] ∧ ([forkLeft, forkRight].map (·.name)).Nodup ∧
    ∃ s s' outcome outcome', Session.ofRequests [forkLeft, forkRight] = .ok s ∧
      Session.ofRequests [forkRight, forkLeft] = .ok s' ∧
      (fork.run (s.execute (fun _ => false) 0)).2.2 = .ok outcome ∧
      (fork.run (s'.execute (fun _ => false) 0)).2.2 = .ok outcome' ∧
      (∃ change, outcome.heads.get? "refs/heads/left" = some change) ∧ outcome'.heads = outcome.heads ∧
      outcome'.tags = outcome.tags ∧ outcome'.tagObjects = outcome.tagObjects ∧
      outcome'.commits.Perm outcome.commits := by
  have hperm : [forkLeft, forkRight].Perm [forkRight, forkLeft] := .swap ..
  have hnames : ([forkLeft, forkRight].map (·.name)).Nodup := by decide
  have hsame : ∀ q ∈ [forkLeft, forkRight], q.retention = .abbreviated := by
    intro q hq
    rcases List.mem_pair.1 hq with rfl | rfl <;> rfl
  obtain ⟨progress, hwalks⟩ := exists_walks_of_fork 0 [forkLeft, forkRight] [⟨3⟩, ⟨4⟩] rfl (by decide)
  obtain ⟨heads, -, -, hdone, -⟩ := walks_ok_cases hwalks
  obtain ⟨s, s', hs, hs', hall⟩ :=
    order_of_equal_retentions_is_immaterial fork .abbreviated _ _ hperm hnames hsame
  obtain ⟨-, rfl⟩ := Session.ofRequests_eq_ok_iff.1 hs
  have houtcome := execute_of_walks (s := { requests := [forkLeft, forkRight] }) rfl hwalks
  obtain ⟨outcome', houtcome', hequal⟩ := hall _ _ houtcome
  exact ⟨hperm, hnames, _, s', _, outcome', hs, hs', houtcome, houtcome', hdone.named forkLeft (by simp), hequal⟩

end Publication

end PrunedHistory
