import Kyro.Proof.Scheduler.Order

/-!
# The two lists of a `schedule`

Three loops fill the lists: one takes all the running decodes, one takes running prefills until the
budget is used up, and one admits new requests to either list. The last one does nothing where the
second has stopped early, so the prefills are a front part of the unfinished requests in the order
of the new running queue. The mark of a request says on which list it is.
-/

namespace Kyro

namespace Scheduler

/-! ### The marks -/

/-- After the first loop no finished prefill is marked. -/
theorem markDecodes_finished (reqs : List Request) :
    ∀ req ∈ finished (markDecodes reqs), req.isPrefill = false := by
  intro req hreq
  obtain ⟨hmem, hdone⟩ := List.mem_filter.mp hreq
  obtain ⟨old, _, rfl⟩ := List.mem_map.mp hmem
  by_cases hold : old.Prefilled
  · rw [if_pos hold]
    rfl
  · rw [if_neg hold] at hdone
    exact absurd (of_decide_eq_true hdone) hold

/-- The second loop does not touch the finished prefills and marks all that it selects. -/
theorem selectPrefills_marks (config : SchedulerConfig) (reqs : List Request) (before : ℕ) :
    finished (selectPrefills config reqs before).1 = finished reqs ∧
    ∀ selected : List Request, selected <+: unfinished (selectPrefills config reqs before).1 →
      (selectPrefills config reqs before).2.1 = selected.map (·.id) →
        ∀ req ∈ selected, req.isPrefill = true := by
  induction reqs generalizing before with
  | nil =>
      refine ⟨rfl, fun selected hfront _ => ?_⟩
      rw [List.prefix_nil.mp hfront]
      simp
  | cons req reqs ih =>
      rw [selectPrefills]
      by_cases hbudget : config.maxTokensPerIter ≤ before
      · rw [if_pos hbudget]
        refine ⟨rfl, fun selected _ hids => ?_⟩
        rw [List.map_eq_nil_iff.mp hids.symm]
        simp
      · rw [if_neg hbudget]
        by_cases hcursor : req.prefillCursor < req.promptTokens.length
        · obtain ⟨hfinished, hmarks⟩ := ih (before + req.chunkSize config)
          have hopen : ¬ (req.setPrefill true).Prefilled := Nat.not_le.mpr hcursor
          have hopenOld : ¬ req.Prefilled := Nat.not_le.mpr hcursor
          rw [if_pos hcursor]
          refine ⟨?_, fun selected hfront hids => ?_⟩
          · rw [finished_cons, if_neg hopen, finished_cons, if_neg hopenOld, hfinished]
          · rw [unfinished_cons, if_neg hopen] at hfront
            cases selected with
            | nil => simp
            | cons first selected =>
                obtain ⟨hfirst, hrest⟩ := List.cons_prefix_cons.mp hfront
                have htail := (List.cons.inj hids).2
                intro other hother
                rcases List.mem_cons.mp hother with rfl | hother
                · rw [hfirst]
                  rfl
                · exact hmarks selected hrest htail other hother
        · obtain ⟨hfinished, hmarks⟩ := ih before
          have hdone : req.Prefilled := Nat.le_of_not_lt hcursor
          rw [if_neg hcursor]
          refine ⟨?_, fun selected hfront hids => ?_⟩
          · rw [finished_cons, if_pos hdone, finished_cons, if_pos hdone, hfinished]
          · rw [unfinished_cons, if_pos hdone] at hfront
            exact hmarks selected hfront hids

/-- The admission loop marks exactly the requests with an unfinished prefill, and it admits nothing
where the budget is used up already. -/
theorem admit_marks {env : Env} {config : SchedulerConfig} {blockManager : BlockManager}
    {waiting : List Request} {before : ℕ} {admission : Admission}
    (h : admitWaiting env config blockManager waiting before = .ok admission) :
    (∀ req ∈ admission.admitted, req.isPrefill = decide (¬ req.Prefilled)) ∧
      (config.maxTokensPerIter ≤ before → admission.admitted = []) := by
  induction waiting generalizing blockManager before admission with
  | nil =>
      cases h
      exact ⟨by simp, fun _ => rfl⟩
  | cons req waiting ih =>
      rcases admit_cons h with ⟨_, rfl⟩ | ⟨_, manager, _, rfl⟩ |
        ⟨hbudget, manager, blocks, cachedLen, next, rest, _, _, rfl, hrest, rfl⟩
      · exact ⟨by simp, fun _ => rfl⟩
      · exact ⟨by simp, fun _ => rfl⟩
      · refine ⟨?_, fun hspent => absurd hbudget (Nat.not_lt.mpr hspent)⟩
        intro other hother
        rcases List.mem_cons.mp hother with rfl | hother
        · exact decide_eq_decide.mpr Nat.not_le.symm
        · exact (ih hrest).1 other hother

/-! ### The whole call -/

/-- The tokens that a `schedule` has counted when it has selected these. -/
def tokenCount (config : SchedulerConfig) (prefills : List Request) (decodes : List RequestId) :
    ℕ :=
  decodes.length + (prefills.map (·.chunkSize config)).sum

/-- The two lists by the requests of the new running queue: all decodes, and a front part of the
prefills, which is the whole unless the budget is used up. -/
structure Selection (scheduler' : Scheduler) (toPrefill toDecode : List RequestId)
    (prefills : List Request) : Prop where
  decodes : toDecode = ids (finished scheduler'.runningQueue)
  decodeMarks : ∀ req ∈ finished scheduler'.runningQueue, req.isPrefill = false
  front : prefills <+: unfinished scheduler'.runningQueue
  prefills_eq : toPrefill = ids prefills
  prefillMarks : ∀ req ∈ prefills, req.isPrefill = true
  complete : prefills ≠ unfinished scheduler'.runningQueue →
    scheduler'.config.maxTokensPerIter ≤ tokenCount scheduler'.config prefills toDecode

theorem schedule_selection {env : Env} {now : Instant} {scheduler scheduler' : Scheduler}
    {toPrefill toDecode : List RequestId}
    (h : scheduler.schedule env now = .ok (scheduler', toPrefill, toDecode)) :
    ∃ prefills, Selection scheduler' toPrefill toDecode prefills := by
  obtain ⟨⟨blockManager, kept⟩, hexpire, h⟩ := Machine.bind_eq_ok.mp h
  obtain ⟨admission, hloop, heq⟩ := Machine.bind_eq_ok.mp h
  obtain ⟨selected, hselects⟩ := selectPrefills_spec scheduler.config (markDecodes kept)
    ((kept.filter fun req => req.Prefilled).map (·.id)).length
  obtain ⟨hfinished, hmarked⟩ := selectPrefills_marks scheduler.config (markDecodes kept)
    ((kept.filter fun req => req.Prefilled).map (·.id)).length
  generalize hstays : selectPrefills scheduler.config (markDecodes kept)
    ((kept.filter fun req => req.Prefilled).map (·.id)).length = stays at *
  obtain ⟨stays, selectedIds, total⟩ := stays
  dsimp only at hselects hfinished hmarked hloop heq
  have hadmits := admit_spec hloop
  obtain ⟨hadmitMarks, hspent⟩ := admit_marks hloop
  have hdecode : (kept.filter fun req => req.Prefilled).map (·.id) = ids (finished stays) := by
    have hfilter := filter_unmarked (p := fun req => req.Prefilled) (fun _ => rfl)
      (markDecodes_unmarked kept)
    rw [hfinished]
    exact (ids_of_unmarked hfilter).symm
  -- the third loop goes on only where the second has taken everything
  have hall : selected = unfinished stays ∨
      (scheduler.config.maxTokensPerIter ≤ total ∧ admission.admitted = []) := by
    by_cases hlt : total < scheduler.config.maxTokensPerIter
    · exact Or.inl (hselects.complete hlt)
    · exact Or.inr ⟨Nat.le_of_not_lt hlt, hspent (Nat.le_of_not_lt hlt)⟩
  cases heq
  refine ⟨selected ++ unfinished admission.admitted, ?_, ?_, ?_, ?_, ?_, ?_⟩
  · rw [finished_append, ids_append, ← hdecode, hadmits.toDecode]
    rfl
  · intro req hreq
    rw [finished_append, List.mem_append, hfinished] at hreq
    rcases hreq with hreq | hreq
    · exact markDecodes_finished kept req hreq
    · obtain ⟨hmem, hdone⟩ := List.mem_filter.mp hreq
      rw [hadmitMarks req hmem]
      simpa using hdone
  · rw [unfinished_append]
    rcases hall with heq | ⟨_, hnone⟩
    · rw [heq]
    · rw [hnone]
      exact (List.append_nil selected).symm ▸ hselects.front.trans (List.prefix_append _ _)
  · rw [ids_append, hadmits.toPrefill, hselects.ids_eq]
    rfl
  · intro req hreq
    rcases List.mem_append.mp hreq with hreq | hreq
    · exact hmarked selected hselects.front hselects.ids_eq req hreq
    · obtain ⟨hmem, hopen⟩ := List.mem_filter.mp hreq
      rw [hadmitMarks req hmem]
      exact hopen
  · intro hproper
    rcases hall with heq | ⟨hle, hnone⟩
    · rw [unfinished_append, heq] at hproper
      exact absurd rfl hproper
    · have htotal := hselects.total
      rw [hdecode, ids, List.length_map] at htotal
      rw [tokenCount, hdecode, hadmits.toDecode, hnone]
      simp only [unfinished, finished, ids, List.filter_nil, List.append_nil, List.map_nil,
        List.length_map] at htotal ⊢
      omega

section Named

variable {scheduler' : Scheduler} {toPrefill toDecode : List RequestId} {prefills : List Request}

theorem Selection.selected (h : Selection scheduler' toPrefill toDecode prefills) {req : Request}
    (hreq : req ∈ prefills) : req ∈ scheduler'.runningQueue ∧ ¬ req.Prefilled := by
  have hmem := h.front.subset hreq
  exact ⟨List.mem_of_mem_filter hmem, not_prefilled_of_mem_unfinished hmem⟩

variable (hnodup : (ids scheduler'.runningQueue).Nodup)

include hnodup

/-- With distinct ids an id on a list stands for its request. -/
theorem Selection.mem_prefills (h : Selection scheduler' toPrefill toDecode prefills)
    {req : Request} (hreq : req ∈ scheduler'.runningQueue) (hid : req.id ∈ toPrefill) :
    req ∈ prefills := by
  rw [h.prefills_eq] at hid
  obtain ⟨other, hother, hsame⟩ := mem_ids.mp hid
  rwa [← eq_of_id_eq hnodup (h.selected hother).1 hreq hsame]

theorem Selection.mem_toDecode (h : Selection scheduler' toPrefill toDecode prefills)
    {req : Request} (hreq : req ∈ scheduler'.runningQueue) :
    req.id ∈ toDecode ↔ req ∈ finished scheduler'.runningQueue := by
  rw [h.decodes]
  constructor
  · intro hid
    obtain ⟨other, hother, hsame⟩ := mem_ids.mp hid
    rwa [← eq_of_id_eq hnodup (List.mem_of_mem_filter hother) hreq hsame]
  · exact fun hmem => mem_ids.mpr ⟨req, hmem, rfl⟩

end Named

/-- **The selection is exact.** A `schedule` on queues with distinct ids returns two disjoint lists
without duplicates that name running requests only. The decodes are exactly the running requests
with a finished prefill; the prefills are a front part of the others in the order of the queue,
which misses some only where the tokens counted have reached the budget; and the mark of each
request says which list it is on. -/
theorem selection_exact {env : Env} {now : Instant} {scheduler scheduler' : Scheduler}
    (hdistinct : (ids (scheduler.runningQueue ++ scheduler.waitingQueue)).Nodup)
    {toPrefill toDecode : List RequestId}
    (h : scheduler.schedule env now = .ok (scheduler', toPrefill, toDecode)) :
    toPrefill.Nodup ∧ toDecode.Nodup ∧ toPrefill.Disjoint toDecode ∧
    (∀ id ∈ toPrefill ++ toDecode, id ∈ ids scheduler'.runningQueue) ∧
    (∀ req ∈ scheduler'.runningQueue,
      req.id ∈ toDecode ↔ req.promptTokens.length ≤ req.prefillCursor) ∧
    (∃ prefills, toPrefill = ids prefills ∧
      prefills <+: (scheduler'.runningQueue.filter fun req =>
        req.prefillCursor < req.promptTokens.length) ∧
      (prefills ≠ (scheduler'.runningQueue.filter fun req =>
        req.prefillCursor < req.promptTokens.length) →
          scheduler.config.maxTokensPerIter ≤ tokenCount scheduler.config prefills toDecode)) ∧
    ∀ req ∈ scheduler'.runningQueue,
      (req.id ∈ toPrefill → req.isPrefill = true) ∧
      (req.id ∈ toDecode → req.isPrefill = false) := by
  obtain ⟨_, _, _, _, hspec⟩ := schedule_spec h
  obtain ⟨prefills, hsel⟩ := schedule_selection h
  have hnodup : (ids scheduler'.runningQueue).Nodup := by
    have hqueues := hdistinct.sublist hspec.ids_sublist
    rw [ids_append] at hqueues
    exact (List.nodup_append.mp hqueues).1
  have hunfinished : unfinished scheduler'.runningQueue =
      scheduler'.runningQueue.filter fun req => req.prefillCursor < req.promptTokens.length := by
    rw [unfinished]
    simp only [Nat.not_le]
  refine ⟨?_, ?_, ?_, ?_, ?_, ⟨prefills, hsel.prefills_eq, ?_, ?_⟩, ?_⟩
  · rw [hsel.prefills_eq]
    exact hnodup.sublist ((hsel.front.sublist.trans List.filter_sublist).map _)
  · rw [hsel.decodes]
    exact hnodup.sublist (List.filter_sublist.map _)
  · intro id hid hid'
    rw [hsel.prefills_eq] at hid
    obtain ⟨req, hreq, rfl⟩ := mem_ids.mp hid
    have hdone := (hsel.mem_toDecode hnodup (hsel.selected hreq).1).mp hid'
    exact (hsel.selected hreq).2 (of_decide_eq_true (List.mem_filter.mp hdone).2)
  · intro id hid
    rcases List.mem_append.mp hid with hid | hid
    · rw [hsel.prefills_eq] at hid
      obtain ⟨req, hreq, rfl⟩ := mem_ids.mp hid
      exact mem_ids.mpr ⟨req, (hsel.selected hreq).1, rfl⟩
    · rw [hsel.decodes] at hid
      obtain ⟨req, hreq, rfl⟩ := mem_ids.mp hid
      exact mem_ids.mpr ⟨req, List.mem_of_mem_filter hreq, rfl⟩
  · intro req hreq
    rw [hsel.mem_toDecode hnodup hreq, finished, List.mem_filter, decide_eq_true_eq]
    exact and_iff_right hreq
  · rw [← hunfinished]
    exact hsel.front
  · rw [← hunfinished, ← hspec.config_eq]
    exact hsel.complete
  · intro req hreq
    exact ⟨fun hid => hsel.prefillMarks req (hsel.mem_prefills hnodup hreq hid),
      fun hid => hsel.decodeMarks req ((hsel.mem_toDecode hnodup hreq).mp hid)⟩

/-- A decode, a prefill that the budget leaves out, and a request that the first two leave waiting:
the list of prefills is a proper front part. -/
theorem selection_exact_budget_spent :
    ∃ scheduler scheduler', history .counting 4 20 ⟨5, 4⟩
        [.addRequest (makeReq 1 4 50), .addRequest (makeReq 2 6 50), .schedule 0,
          .advancePrefillCursor 1, .addRequest (makeReq 3 5 50)] = .ok scheduler ∧
      scheduler.schedule .counting 0 = .ok (scheduler', [2], [1]) ∧
      ([2] : List RequestId).Disjoint [1] ∧
      ∀ req ∈ scheduler'.runningQueue,
        (req.id ∈ ([2] : List RequestId) → req.isPrefill = true) ∧
          (req.id ∈ ([1] : List RequestId) → req.isPrefill = false) := by
  have hrun : ∃ scheduler, history .counting 4 20 ⟨5, 4⟩
      [.addRequest (makeReq 1 4 50), .addRequest (makeReq 2 6 50), .schedule 0,
        .advancePrefillCursor 1, .addRequest (makeReq 3 5 50)] = .ok scheduler ∧
      (ids (scheduler.runningQueue ++ scheduler.waitingQueue)).Nodup ∧
      ∃ result, scheduler.schedule .counting 0 = .ok result ∧ result.2 = ([2], [1]) := by
    decide +kernel
  obtain ⟨scheduler, hrun, hnodup, ⟨scheduler', lists⟩, hschedule, hlists⟩ := hrun
  dsimp only at hlists
  subst hlists
  obtain ⟨_, _, hdisjoint, _, _, _, hmarks⟩ := selection_exact hnodup hschedule
  exact ⟨scheduler, scheduler', hrun, hschedule, hdisjoint, hmarks⟩

end Scheduler
end Kyro
