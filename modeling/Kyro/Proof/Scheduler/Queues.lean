import Kyro.Proof.Scheduler.Schedule

/-!
# The two queues

The requests of the queues by their ids, and where the requests that are in the queues after a
`schedule` were before it.
-/

namespace Kyro

/-- The request ids of a queue. -/
def ids (reqs : List Request) : List RequestId := reqs.map (·.id)

theorem ids_cons (req : Request) (reqs : List Request) :
    ids (req :: reqs) = req.id :: ids reqs := rfl

theorem mem_ids {id : RequestId} {reqs : List Request} :
    id ∈ ids reqs ↔ ∃ req ∈ reqs, req.id = id := List.mem_map

theorem ids_map {f : Request → Request} (hf : ∀ req, (f req).id = req.id) (reqs : List Request) :
    ids (reqs.map f) = ids reqs := by
  rw [ids, ids, List.map_map]
  exact List.map_congr_left fun req _ => hf req

/-- With distinct ids the id names the request. -/
theorem eq_of_id_eq {reqs : List Request} (hnodup : (ids reqs).Nodup) {req other : Request}
    (hreq : req ∈ reqs) (hother : other ∈ reqs) (hid : req.id = other.id) : req = other :=
  List.inj_on_of_nodup_map hnodup hreq hother hid

/-- With distinct ids the first match is the only one. -/
theorem updateRequest_eq_map {reqs : List Request} (hnodup : (ids reqs).Nodup) (id : RequestId)
    (f : Request → Request) :
    updateRequest id f reqs = reqs.map fun req => if req.id = id then f req else req := by
  induction reqs with
  | nil => rfl
  | cons req reqs ih =>
      obtain ⟨hnotMem, hrest⟩ := List.nodup_cons.mp hnodup
      rw [updateRequest, List.map_cons]
      by_cases hid : req.id = id
      · rw [if_pos hid, if_pos hid]
        congr 1
        refine (List.map_id' reqs).symm.trans (List.map_congr_left fun other hother => ?_)
        rw [if_neg fun h => hnotMem (mem_ids.mpr ⟨other, hother, h.trans hid.symm⟩)]
      · rw [if_neg hid, if_neg hid, ih hrest]

theorem eraseP_eq_filter {reqs : List Request} (hnodup : (ids reqs).Nodup) (id : RequestId) :
    reqs.eraseP (fun req => req.id = id) = reqs.filter fun req => req.id ≠ id := by
  induction reqs with
  | nil => rfl
  | cons req reqs ih =>
      obtain ⟨hnotMem, hrest⟩ := List.nodup_cons.mp hnodup
      by_cases hid : req.id = id
      · rw [List.eraseP_cons_of_pos (by simpa using hid),
          List.filter_cons_of_neg (by simpa using hid)]
        refine (List.filter_eq_self.mpr fun other hother => ?_).symm
        simpa using fun h : other.id = id =>
          hnotMem (mem_ids.mpr ⟨other, hother, h.trans hid.symm⟩)
      · rw [List.eraseP_cons_of_neg (by simpa using hid),
          List.filter_cons_of_pos (by simpa using hid), ih hrest]

theorem ids_of_unmarked {reqs reqs' : List Request}
    (h : reqs'.map Request.unmarked = reqs.map Request.unmarked) : ids reqs' = ids reqs := by
  have hids : ∀ l : List Request, ids l = ids (l.map Request.unmarked) := fun l =>
    (ids_map (f := Request.unmarked) (fun _ => rfl) l).symm
  rw [hids, hids reqs, h]

theorem exists_of_unmarked {reqs reqs' : List Request}
    (h : reqs'.map Request.unmarked = reqs.map Request.unmarked) {req' : Request}
    (hreq' : req' ∈ reqs') : ∃ req ∈ reqs, req'.unmarked = req.unmarked := by
  have hmem := List.mem_map_of_mem (f := Request.unmarked) hreq'
  rw [h] at hmem
  obtain ⟨req, hreq, heq⟩ := List.mem_map.mp hmem
  exact ⟨req, hreq, heq.symm⟩

theorem ids_append (reqs others : List Request) : ids (reqs ++ others) = ids reqs ++ ids others :=
  List.map_append

theorem ids_updateRequest {f : Request → Request} (hf : ∀ req, (f req).id = req.id)
    (id : RequestId) (reqs : List Request) : ids (updateRequest id f reqs) = ids reqs := by
  induction reqs with
  | nil => rfl
  | cons req reqs ih =>
      rw [updateRequest]
      split
      · rw [ids_cons, ids_cons, hf]
      · rw [ids_cons, ids_cons, ih]

theorem exists_of_mem_updateRequest {f : Request → Request} {id : RequestId}
    {reqs : List Request} {req' : Request} (hreq' : req' ∈ updateRequest id f reqs) :
    ∃ req ∈ reqs, req' = req ∨ req' = f req := by
  induction reqs with
  | nil => cases hreq'
  | cons req reqs ih =>
      rw [updateRequest] at hreq'
      split at hreq'
      · rcases List.mem_cons.mp hreq' with rfl | hmem
        · exact ⟨req, List.mem_cons_self, Or.inr rfl⟩
        · exact ⟨req', List.mem_cons_of_mem _ hmem, Or.inl rfl⟩
      · rcases List.mem_cons.mp hreq' with rfl | hmem
        · exact ⟨req', List.mem_cons_self, Or.inl rfl⟩
        · obtain ⟨old, hold, hor⟩ := ih hmem
          exact ⟨old, List.mem_cons_of_mem _ hold, hor⟩

theorem ids_eraseP (id : RequestId) (reqs : List Request) :
    ids (reqs.eraseP (·.id = id)) = (ids reqs).erase id := by
  induction reqs with
  | nil => rfl
  | cons req reqs ih =>
      rw [ids_cons]
      by_cases hid : req.id = id
      · rw [List.eraseP_cons_of_pos (by simpa using hid), hid, List.erase_cons_head]
      · rw [List.eraseP_cons_of_neg (by simpa using hid), List.erase_cons_tail (by simpa using hid),
          ids_cons, ih]

namespace Scheduler

section Scheduled

variable {now : Instant} {scheduler scheduler' : Scheduler} {toPrefill toDecode : List RequestId}
  {stays selected taken admitted : List Request}

theorem Scheduled.ids_admitted
    (h : Scheduled now scheduler scheduler' toPrefill toDecode stays selected taken admitted) :
    ids admitted = ids taken := by
  have hadmitted := h.admitted_as
  clear h
  induction hadmitted with
  | nil => rfl
  | cons hreq _ ih =>
      obtain ⟨_, _, _, rfl⟩ := hreq
      rw [ids, List.map_cons, ids, List.map_cons, ← ids, ← ids, ih]
      rfl

/-- A `schedule` drops the ids of the expired requests from the queues. -/
theorem Scheduled.ids_eq
    (h : Scheduled now scheduler scheduler' toPrefill toDecode stays selected taken admitted) :
    ids (scheduler'.runningQueue ++ scheduler'.waitingQueue) =
      ids ((scheduler.runningQueue ++ scheduler.waitingQueue).filter
        fun req => ¬ req.Expired now) := by
  rw [List.filter_append, h.running_eq, h.waiting_eq, ids_append, ids_append, ids_append,
    ids_append, ids_of_unmarked h.stays_eq, h.ids_admitted, List.append_assoc]

theorem Scheduled.ids_sublist
    (h : Scheduled now scheduler scheduler' toPrefill toDecode stays selected taken admitted) :
    (ids (scheduler'.runningQueue ++ scheduler'.waitingQueue)).Sublist
      (ids (scheduler.runningQueue ++ scheduler.waitingQueue)) := by
  rw [h.ids_eq]
  exact List.filter_sublist.map _

theorem exists_admittedAs {taken admitted : List Request}
    (h : List.Forall₂ Request.AdmittedAs taken admitted) {next : Request}
    (hnext : next ∈ admitted) : ∃ req ∈ taken, req.AdmittedAs next := by
  induction h with
  | nil => cases hnext
  | cons hreq _ ih =>
      rcases List.mem_cons.mp hnext with rfl | hmem
      · exact ⟨_, List.mem_cons_self, hreq⟩
      · obtain ⟨req, hreq, has⟩ := ih hmem
        exact ⟨req, List.mem_cons_of_mem _ hreq, has⟩

/-- A request that runs after a `schedule` ran before it or was admitted by it. -/
theorem Scheduled.mem_running
    (h : Scheduled now scheduler scheduler' toPrefill toDecode stays selected taken admitted)
    {next : Request} (hnext : next ∈ scheduler'.runningQueue) :
    (∃ req ∈ scheduler.runningQueue, ¬ req.Expired now ∧ next.unmarked = req.unmarked) ∨
      ∃ req ∈ scheduler.waitingQueue, ¬ req.Expired now ∧ req.AdmittedAs next := by
  rw [h.running_eq, List.mem_append] at hnext
  rcases hnext with hnext | hnext
  · obtain ⟨req, hreq, heq⟩ := exists_of_unmarked h.stays_eq hnext
    obtain ⟨hreq, hexpired⟩ := List.mem_filter.mp hreq
    exact Or.inl ⟨req, hreq, of_decide_eq_true hexpired, heq⟩
  · obtain ⟨req, hreq, has⟩ := exists_admittedAs h.admitted_as hnext
    have hmem : req ∈ scheduler.waitingQueue.filter fun req => ¬ req.Expired now := by
      rw [h.waiting_eq]
      exact List.mem_append_left _ hreq
    obtain ⟨hreq, hexpired⟩ := List.mem_filter.mp hmem
    exact Or.inr ⟨req, hreq, of_decide_eq_true hexpired, has⟩

/-- What holds of the running requests whatever their marks, and of every request as it is admitted,
holds of the new running queue. -/
theorem Scheduled.forall_running
    (h : Scheduled now scheduler scheduler' toPrefill toDecode stays selected taken admitted)
    {P : Request → Prop} (hmark : ∀ req : Request, P req.unmarked ↔ P req)
    (hold : ∀ req ∈ scheduler.runningQueue, P req)
    (hnew : ∀ req ∈ scheduler.waitingQueue, ∀ next, req.AdmittedAs next → P next) :
    ∀ req ∈ scheduler'.runningQueue, P req := by
  intro req hreq
  rcases h.mem_running hreq with ⟨old, hmem, _, heq⟩ | ⟨old, hmem, _, has⟩
  · rw [← hmark, heq, hmark]
    exact hold old hmem
  · exact hnew old hmem req has

theorem Scheduled.mem_waiting
    (h : Scheduled now scheduler scheduler' toPrefill toDecode stays selected taken admitted)
    {req : Request} (hreq : req ∈ scheduler'.waitingQueue) : req ∈ scheduler.waitingQueue := by
  have hmem : req ∈ scheduler.waitingQueue.filter fun req => ¬ req.Expired now := by
    rw [h.waiting_eq]
    exact List.mem_append_right _ hreq
  exact List.mem_of_mem_filter hmem

/-- The selected prefills are unfinished ones of the new running queue, the decodes are all finished
ones. -/
theorem Scheduled.selection
    (h : Scheduled now scheduler scheduler' toPrefill toDecode stays selected taken admitted) :
    (∃ prefills : List Request, prefills.Sublist (unfinished scheduler'.runningQueue) ∧
      toPrefill = ids prefills) ∧ toDecode = ids (finished scheduler'.runningQueue) := by
  refine ⟨⟨selected ++ unfinished admitted, ?_, h.toPrefill_eq⟩, ?_⟩
  · rw [h.running_eq, unfinished_append]
    exact h.front.sublist.append (List.Sublist.refl _)
  · rw [h.toDecode_eq, h.running_eq, finished_append]
    rfl

end Scheduled

end Scheduler

end Kyro
