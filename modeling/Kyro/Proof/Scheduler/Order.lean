import Kyro.Proof.Scheduler.Queues

/-!
# The order of the requests

The running requests followed by the waiting ones are in the order of their arrival, and a request
that has arrived is in one of the two queues until it is finished or dropped with its deadline
passed.
-/

namespace Kyro

open scoped List

namespace Scheduler

/-- The id that a call adds. -/
def arrival : Call → Option RequestId
  | .addRequest request => some request.id
  | _ => none

/-- The ids of the added requests, in the order of their arrival. -/
def arrivals (calls : List Call) : List RequestId := calls.filterMap arrival

theorem arrivals_snoc (calls : List Call) (call : Call) :
    arrivals (calls ++ [call]) = arrivals calls ++ (arrival call).toList := by
  rw [arrivals, List.filterMap_append]
  rfl

/-- Why a request has left. -/
inductive Removal where
  | finished (id : RequestId)
  /-- Dropped by a `schedule` at `now`. -/
  | expired (request : Request) (now : Instant)
  deriving DecidableEq

def Removal.id : Removal → RequestId
  | .finished id => id
  | .expired request _ => request.id

/-- The requests that a call removes. -/
def removals (scheduler : Scheduler) : Call → List Removal
  | .schedule now =>
    ((scheduler.runningQueue ++ scheduler.waitingQueue).filter (·.Expired now)).map (.expired · now)
  | .finishRequest id => if id ∈ ids scheduler.runningQueue then [.finished id] else []
  | _ => []

/-- A removal has its reason in the calls. -/
def Removal.Due (calls : List Call) : Removal → Prop
  | .finished id => Call.finishRequest id ∈ calls
  | .expired request now => Call.schedule now ∈ calls ∧ request.Expired now

theorem removals_due {scheduler : Scheduler} {call : Call} {removal : Removal}
    (h : removal ∈ scheduler.removals call) (calls : List Call) :
    removal.Due (calls ++ [call]) := by
  have hcall : call ∈ calls ++ [call] := List.mem_append_right _ List.mem_cons_self
  cases call with
  | addRequest request => cases h
  | schedule now =>
      obtain ⟨req, hreq, rfl⟩ := List.mem_map.mp h
      exact ⟨hcall, of_decide_eq_true (List.mem_filter.mp hreq).2⟩
  | advancePrefillCursor id => cases h
  | finishRequest id =>
      rw [removals] at h
      split at h
      · rw [List.mem_singleton.mp h]
        exact hcall
      · cases h

theorem Removal.Due.append {calls : List Call} {removal : Removal} (h : removal.Due calls)
    (more : List Call) : removal.Due (calls ++ more) := by
  cases removal with
  | finished id => exact List.mem_append_left _ h
  | expired request now => exact ⟨List.mem_append_left _ h.1, h.2⟩

/-- The queues are a subsequence of the arrivals, and what is not in them has been removed. -/
structure Ordered (calls : List Call) (scheduler : Scheduler) (removed : List Removal) : Prop where
  sublist : (ids (scheduler.runningQueue ++ scheduler.waitingQueue)).Sublist (arrivals calls)
  perm : (arrivals calls).Perm
    (ids (scheduler.runningQueue ++ scheduler.waitingQueue) ++ removed.map Removal.id)
  due : ∀ removal ∈ removed, removal.Due calls

section Exec

variable {env : Env} {calls : List Call} {scheduler scheduler' : Scheduler}
  {removed : List Removal}

/-- What a call does to the ids of the queues: it adds one at the end or takes some out. -/
theorem exec_ids {call : Call} (h : scheduler.exec env call = .ok scheduler') :
    (ids (scheduler'.runningQueue ++ scheduler'.waitingQueue)).Sublist
      (ids (scheduler.runningQueue ++ scheduler.waitingQueue) ++ (arrival call).toList) ∧
    (ids (scheduler.runningQueue ++ scheduler.waitingQueue) ++ (arrival call).toList).Perm
      (ids (scheduler'.runningQueue ++ scheduler'.waitingQueue) ++
        (scheduler.removals call).map Removal.id) := by
  cases call with
  | addRequest request =>
      cases h
      have hids : ids (scheduler.runningQueue ++ (scheduler.waitingQueue ++ [request])) =
          ids (scheduler.runningQueue ++ scheduler.waitingQueue) ++ [request.id] := by
        rw [← List.append_assoc, ids_append]
        rfl
      simp only [addRequest, arrival, Option.toList_some, removals, List.map_nil,
        List.append_nil, hids]
      exact ⟨List.Sublist.refl _, List.Perm.refl _⟩
  | schedule now =>
      obtain ⟨_, _, hschedule⟩ := exec_schedule h
      obtain ⟨_, _, _, _, hspec⟩ := schedule_spec hschedule
      simp only [arrival, Option.toList_none, List.append_nil]
      refine ⟨hspec.ids_sublist, ?_⟩
      have hexpired : (scheduler.removals (.schedule now)).map Removal.id =
          ids ((scheduler.runningQueue ++ scheduler.waitingQueue).filter (·.Expired now)) := by
        rw [removals, List.map_map]
        rfl
      rw [hexpired, hspec.ids_eq, ← ids_append]
      apply List.Perm.map
      apply List.Perm.symm
      apply List.perm_append_comm.trans
      simp only [decide_not]
      exact List.filter_append_perm _ _
  | advancePrefillCursor id =>
      cases h
      have hids : ids (scheduler.advancePrefillCursor id).runningQueue =
          ids scheduler.runningQueue := by
        apply ids_updateRequest
        intro req
        rfl
      simp only [arrival, Option.toList_none, List.append_nil, removals, List.map_nil,
        ids_append, hids]
      exact ⟨List.Sublist.refl _, List.Perm.refl _⟩
  | finishRequest id =>
      simp only [arrival, Option.toList_none, List.append_nil, removals]
      rw [exec, finishRequest] at h
      by_cases hid : id ∈ ids scheduler.runningQueue
      · have hany : scheduler.runningQueue.any (·.id = id) = true := by
          simpa [mem_ids] using hid
        rw [if_pos hany] at h
        obtain ⟨blockManager, _, heq⟩ := Machine.bind_eq_ok.mp h
        cases heq
        rw [if_pos hid, ids_append, ids_append, ids_eraseP]
        refine ⟨List.erase_sublist.append_right _, ?_⟩
        apply ((List.perm_cons_erase hid).append_right _).trans
        exact List.perm_append_singleton id _ |>.symm
      · have hany : ¬ scheduler.runningQueue.any (·.id = id) = true := by
          simpa [mem_ids] using hid
        rw [if_neg hany] at h
        cases h
        rw [if_neg hid, List.map_nil, List.append_nil]
        exact ⟨List.Sublist.refl _, List.Perm.refl _⟩

/-- **Every call keeps the order.** -/
theorem exec_ordered (h : Ordered calls scheduler removed) {call : Call}
    (hexec : scheduler.exec env call = .ok scheduler') :
    Ordered (calls ++ [call]) scheduler' (removed ++ scheduler.removals call) := by
  obtain ⟨hsublist, hperm⟩ := exec_ids hexec
  refine ⟨?_, ?_, ?_⟩
  · rw [arrivals_snoc]
    exact hsublist.trans (h.sublist.append_right _)
  · -- the new arrival goes past the old removals, and what the call removes joins them
    rw [arrivals_snoc, List.map_append]
    calc arrivals calls ++ (arrival call).toList
      _ ~ ids (scheduler.runningQueue ++ scheduler.waitingQueue) ++ removed.map Removal.id ++
          (arrival call).toList := h.perm.append_right _
      _ ~ ids (scheduler.runningQueue ++ scheduler.waitingQueue) ++ (arrival call).toList ++
          removed.map Removal.id := by
        rw [List.append_assoc, List.append_assoc]
        exact List.perm_append_comm.append_left _
      _ ~ ids (scheduler'.runningQueue ++ scheduler'.waitingQueue) ++
          (scheduler.removals call).map Removal.id ++ removed.map Removal.id :=
        hperm.append_right _
      _ ~ _ := by
        rw [List.append_assoc]
        exact List.perm_append_comm.append_left _
  · intro removal hremoval
    rcases List.mem_append.mp hremoval with hold | hnew
    · exact (h.due removal hold).append _
    · exact removals_due hnew calls

end Exec

/-! ### Runs -/

/-- A run that keeps which requests leave. -/
def removalHistory (env : Env) (blockSize numGpuBlocks : ℕ) (config : SchedulerConfig)
    (calls : List Call) : Except Fault (Scheduler × List Removal) :=
  Machine.run (Machine.recorded (exec env) removals)
    (new (BlockManager.new env blockSize numGpuBlocks) config, []) calls

theorem removalHistory_ordered {env : Env} {blockSize numGpuBlocks : ℕ} {config : SchedulerConfig}
    {calls : List Call} {scheduler : Scheduler} {removed : List Removal}
    (hrun : removalHistory env blockSize numGpuBlocks config calls = .ok (scheduler, removed)) :
    Ordered calls scheduler removed := by
  apply Machine.run_history (I := fun calls (s : Scheduler × List Removal) =>
    Ordered calls s.1 s.2) _ _ hrun
  · intro calls s call s' hordered hstep
    obtain ⟨hexec, hrecord⟩ := Machine.recorded_eq_ok.mp hstep
    rw [hrecord]
    exact exec_ordered hordered hexec
  · exact ⟨List.Sublist.refl _, List.Perm.refl _, fun _ hmem => by cases hmem⟩

/-- In a duplicate-free list, the order of a subsequence is that of the positions. -/
theorem idxOf_lt_of_sublist {α : Type*} [DecidableEq α] {front back l : List α} (hnodup : l.Nodup)
    (hsub : (front ++ back).Sublist l) {a b : α} (ha : a ∈ front) (hb : b ∈ back) :
    l.idxOf a < l.idxOf b := by
  have hpairs : l.Pairwise fun x y => l.idxOf x < l.idxOf y := by
    rw [List.pairwise_iff_getElem]
    intro i j hi hj hlt
    rwa [hnodup.idxOf_getElem, hnodup.idxOf_getElem]
  exact (List.pairwise_append.mp (hpairs.sublist hsub)).2.2 a ha b hb

/-- **No request is lost, duplicated or overtaken.** The queues are a duplicate-free subsequence of
the arrivals; every arrival is running, waiting or removed, and only one of these; what is removed
was finished by a call or had its deadline passed at one; and what runs has arrived before what
waits. -/
theorem queues_in_arrival_order (env : Env) {blockSize numGpuBlocks : ℕ} {config : SchedulerConfig}
    {calls : List Call} (hdistinct : (arrivals calls).Nodup) {scheduler : Scheduler}
    {removed : List Removal}
    (hrun : removalHistory env blockSize numGpuBlocks config calls = .ok (scheduler, removed)) :
    (ids (scheduler.runningQueue ++ scheduler.waitingQueue)).Nodup ∧
    (ids (scheduler.runningQueue ++ scheduler.waitingQueue)).Sublist (arrivals calls) ∧
    (ids scheduler.runningQueue ++ ids scheduler.waitingQueue ++ removed.map Removal.id).Nodup ∧
    (ids scheduler.runningQueue ++ ids scheduler.waitingQueue ++ removed.map Removal.id).Perm
      (arrivals calls) ∧
    (∀ removal ∈ removed, removal.Due calls) ∧
    ∀ req ∈ scheduler.runningQueue, ∀ other ∈ scheduler.waitingQueue,
      (arrivals calls).idxOf req.id < (arrivals calls).idxOf other.id := by
  have hordered := removalHistory_ordered hrun
  rw [← ids_append]
  refine ⟨hdistinct.sublist hordered.sublist, hordered.sublist,
    (hordered.perm.nodup_iff).mp hdistinct, hordered.perm.symm, hordered.due, ?_⟩
  intro req hreq other hother
  have hsub := hordered.sublist
  rw [ids_append] at hsub
  exact idxOf_lt_of_sublist hdistinct hsub (mem_ids.mpr ⟨req, hreq, rfl⟩)
    (mem_ids.mpr ⟨other, hother, rfl⟩)

theorem queues_in_arrival_order_expired :
    ∃ scheduler removed, removalHistory .counting 4 9 ⟨8, 4⟩
        [.addRequest { makeReq 1 5 50 with deadline := some 3 }, .addRequest (makeReq 2 2 50),
          .schedule 0, .addRequest (makeReq 3 2 50), .finishRequest 2, .schedule 3] =
          .ok (scheduler, removed) ∧
      removed.map Removal.id = [2, 1] ∧
      (ids scheduler.runningQueue ++ ids scheduler.waitingQueue ++ removed.map Removal.id).Nodup ∧
      ∀ removal ∈ removed, removal.Due
        [.addRequest { makeReq 1 5 50 with deadline := some 3 }, .addRequest (makeReq 2 2 50),
          .schedule 0, .addRequest (makeReq 3 2 50), .finishRequest 2, .schedule 3] := by
  have hrun : ∃ ran, removalHistory .counting 4 9 ⟨8, 4⟩
      [.addRequest { makeReq 1 5 50 with deadline := some 3 }, .addRequest (makeReq 2 2 50),
        .schedule 0, .addRequest (makeReq 3 2 50), .finishRequest 2, .schedule 3] = .ok ran ∧
      ran.2.map Removal.id = [2, 1] := by
    decide +kernel
  obtain ⟨⟨scheduler, removed⟩, hrun, hremoved⟩ := hrun
  obtain ⟨_, _, hnodup, _, hdue, _⟩ := queues_in_arrival_order .counting (by decide) hrun
  exact ⟨scheduler, removed, hrun, hremoved, hnodup, hdue⟩

end Scheduler
end Kyro
