import BtServer.WorkQueue

/-! Tasks from the thread that pushes them to a worker and back. What the callers of
the queue have seen is kept in a log; the tasks in the list and the ones already
returned are together all that were ever pushed, each of them once. -/

namespace BtServer.Proofs.TaskHandOff
open Lib WorkQueue

variable {task : QueuedTask} {taskid tasktype : Nat} {before after rest : List QueuedTask}

abbrev QueuedTask := Task Nat Bytes

/-- What the callers have seen: the socket and the type of every task, by its number,
the tasks handed out with the class that was asked for, the results that were taken
and the tasks that were returned. -/
structure Log where
  pushed : List (Int × Nat)
  handed : List (Nat × QueuedTask)
  results : List (Nat × List Bytes)
  returned : List QueuedTask

structure Observed where
  state : QueueState
  log : Log

namespace Observed

def initial : Observed := ⟨.initial, ⟨[], [], [], []⟩⟩

def record (observed : Observed) : QueueEvent → Log
  | .push allocated sock tasktype =>
    if allocated then { observed.log with pushed := observed.log.pushed ++ [(sock, tasktype)] } else observed.log
  | .pop tasktype =>
    match (observed.state.queue.poptask tasktype).2 with
    | none => observed.log
    | some task => { observed.log with handed := observed.log.handed ++ [(tasktype, task)] }
  | .pushresult taskid iovec =>
    if (observed.state.queue.pushresult taskid iovec).2 = 0 then
      { observed.log with results := observed.log.results ++ [(taskid, iovec)] }
    else observed.log
  | .popresult =>
    match observed.state.queue.popresult.2 with
    | none => observed.log
    | some task => { observed.log with returned := observed.log.returned ++ [task] }
  | .pushsuccess _ | .cancel _ => observed.log

def Step (before : Observed) (event : QueueEvent) (after : Observed) : Prop :=
  after = ⟨before.state.apply event, before.record event⟩

def tasks (observed : Observed) : List QueuedTask := observed.state.queue.tasklist ++ observed.log.returned

end Observed

/-- Tasks are pushed, handed out, finished and returned, fewer than 2^64 of them. The
id 0 is that of a task nobody works on. -/
def HandOff (observed : Observed) (event : QueueEvent) : Prop :=
  (match event with
    | .push .. | .pop _ | .popresult => True
    | .pushresult taskid _ => taskid ≠ 0
    | .pushsuccess _ | .cancel _ => False) ∧
  (observed.state.apply event).pushed < 2 ^ 64

section Lists
variable {α : Type}

theorem updateFirst_split {wanted : α → Bool} {edit : α → α} {before after : List α} {found : α}
    (skipped : ∀ member ∈ before, wanted member = false) (hit : wanted found = true) :
    updateFirst wanted edit (before ++ found :: after) = before ++ edit found :: after := by
  induction before with
  | nil => simp [updateFirst, hit]
  | cons first rest ih =>
    have miss := skipped first (by simp)
    simp [updateFirst, miss, ih fun member inside => skipped member (by simp [inside])]

theorem updateFirst_absent {wanted : α → Bool} {edit : α → α} {members : List α}
    (absent : ∀ member ∈ members, wanted member = false) : updateFirst wanted edit members = members := by
  induction members with
  | nil => rfl
  | cons first rest ih =>
    simp [updateFirst, absent first (by simp), ih fun member inside => absent member (by simp [inside])]

theorem find_cases (wanted : α → Bool) (members : List α) :
    (members.find? wanted = none ∧ ∀ member ∈ members, wanted member = false) ∨
    ∃ before found after, members = before ++ found :: after ∧ wanted found = true ∧
      (∀ member ∈ before, wanted member = false) ∧ members.find? wanted = some found := by
  cases search : members.find? wanted with
  | none => exact .inl ⟨rfl, by simpa using search⟩
  | some found =>
    obtain ⟨hit, before, after, split, skipped⟩ := List.find?_eq_some_iff_append.mp search
    exact .inr ⟨before, found, after, split, hit, by simpa using skipped, rfl⟩

end Lists

private theorem poptaskTurn_cases (queue : WorkQueue Nat Bytes) (tasktype : Nat) :
    (queue.poptaskTurn tasktype = (queue, none) ∧ ∀ task ∈ queue.tasklist, outstanding tasktype task = false) ∨
    ∃ before task after, queue.tasklist = before ++ task :: after ∧ outstanding tasktype task = true ∧
      (∀ other ∈ before, outstanding tasktype other = false) ∧
      queue.poptaskTurn tasktype =
        (⟨(queue.nextFreeTaskid + 1) % 2 ^ 64,
            before ++ { task with taskid := (queue.nextFreeTaskid + 1) % 2 ^ 64 } :: after⟩,
          some { task with taskid := (queue.nextFreeTaskid + 1) % 2 ^ 64 }) := by
  rcases find_cases (outstanding tasktype) queue.tasklist with
    ⟨search, absent⟩ | ⟨before, task, after, split, hit, skipped, search⟩
  · exact .inl ⟨by simp [poptaskTurn, search], absent⟩
  · refine .inr ⟨before, task, after, split, hit, skipped, ?_⟩
    rw [poptaskTurn, search]
    simp only [split, updateFirst_split skipped hit]

private theorem outstanding_iff :
    outstanding tasktype task = true ↔ task.tasktype &&& taskClassMask = tasktype ∧ task.taskid = 0 := by
  simp [outstanding]

/-- What a worker gets: the first task of its class that nobody works on, with a new
id, or nothing. The one time the counter wraps, its value 0 is not handed out. -/
theorem poptask_cases {queue : WorkQueue Nat Bytes} (small : queue.nextFreeTaskid < 2 ^ 64) (tasktype : Nat) :
    (∃ next, queue.poptask tasktype = (⟨next, queue.tasklist⟩, none) ∧
      (next = queue.nextFreeTaskid ∨ queue.nextFreeTaskid = 2 ^ 64 - 1 ∧ next = 0)) ∨
    ∃ before task after taskid, queue.tasklist = before ++ task :: after ∧ outstanding tasktype task = true ∧
      (∀ other ∈ before, outstanding tasktype other = false) ∧
      queue.poptask tasktype = (⟨taskid, before ++ { task with taskid := taskid } :: after⟩, some { task with taskid := taskid }) ∧
      (taskid = queue.nextFreeTaskid + 1 ∧ taskid < 2 ^ 64 ∨ queue.nextFreeTaskid = 2 ^ 64 - 1 ∧ taskid = 1) := by
  rcases poptaskTurn_cases queue tasktype with ⟨turn, _⟩ | ⟨before, task, after, split, hit, skipped, turn⟩
  · exact .inl ⟨queue.nextFreeTaskid, by rw [poptask, turn], .inl rfl⟩
  by_cases wraps : queue.nextFreeTaskid = 2 ^ 64 - 1
  · obtain ⟨family, unassigned⟩ := outstanding_iff.mp hit
    have zero : (queue.nextFreeTaskid + 1) % 2 ^ 64 = 0 := by omega
    have same : { task with taskid := 0 } = task := by rw [← unassigned]
    rw [zero, same, ← split] at turn
    have again : queue.poptask tasktype = (⟨0, queue.tasklist⟩ : WorkQueue Nat Bytes).poptaskTurn task.tasktype := by
      rw [poptask, turn]
      simp only [unassigned, if_true]
    -- The loop goes on with the type of the task, which is a class only when it is the one that was asked for.
    rcases poptaskTurn_cases ⟨0, queue.tasklist⟩ task.tasktype with ⟨second, _⟩ | ⟨before', task', after', split', hit', skipped', second⟩
    · exact .inl ⟨0, again.trans second, .inr ⟨wraps, rfl⟩⟩
    · obtain ⟨family', _⟩ := outstanding_iff.mp hit'
      have class_eq : task.tasktype = tasktype := by
        rw [← family, ← family', Nat.and_assoc, Nat.and_self]
      rw [class_eq] at hit' skipped' second again
      exact .inr ⟨before', task', after', 1, split', hit', skipped', again.trans second, .inr ⟨wraps, rfl⟩⟩
  · have next : (queue.nextFreeTaskid + 1) % 2 ^ 64 = queue.nextFreeTaskid + 1 := Nat.mod_eq_of_lt (by omega)
    rw [next] at turn
    refine .inr ⟨before, task, after, queue.nextFreeTaskid + 1, split, hit, skipped, ?_, .inl ⟨rfl, by omega⟩⟩
    rw [poptask, turn]
    simp

theorem pushresult_cases (queue : WorkQueue Nat Bytes) (taskid : Nat) (iovec : List Bytes) :
    (queue.pushresult taskid iovec = (queue, -1) ∧ ∀ task ∈ queue.tasklist, task.taskid ≠ taskid) ∨
    ∃ before task after, queue.tasklist = before ++ task :: after ∧ task.taskid = taskid ∧
      queue.pushresult taskid iovec =
        ({ queue with tasklist := before ++ { task with iovec := iovec, tasktype := taskDone } :: after }, 0) := by
  rcases find_cases (fun task : QueuedTask => decide (task.taskid = taskid)) queue.tasklist with
    ⟨_, absent⟩ | ⟨before, task, after, split, hit, skipped, _⟩
  · have none : queue.tasklist.any (fun task => decide (task.taskid = taskid)) = false := by simpa using absent
    refine .inl ⟨?_, by simpa using absent⟩
    rw [pushresult, updateFirst_absent absent, none]
    rfl
  · refine .inr ⟨before, task, after, split, by simpa using hit, ?_⟩
    have found : queue.tasklist.any (fun task => decide (task.taskid = taskid)) = true :=
      List.any_eq_true.mpr ⟨task, by simp [split], hit⟩
    rw [pushresult, found]
    simp only [split, updateFirst_split skipped hit, if_true]

theorem popresult_cases (queue : WorkQueue Nat Bytes) :
    (queue.popresult = (queue, none) ∧ ∀ task ∈ queue.tasklist, task.tasktype ≠ taskDone) ∨
    ∃ before task after, queue.tasklist = before ++ task :: after ∧ task.tasktype = taskDone ∧
      queue.popresult = ({ queue with tasklist := before ++ after }, some task) := by
  rcases find_cases (fun task : QueuedTask => decide (task.tasktype = taskDone)) queue.tasklist with
    ⟨search, absent⟩ | ⟨before, task, after, split, hit, skipped, search⟩
  · refine .inl ⟨?_, by simpa using absent⟩
    rw [popresult, search, List.eraseP_of_forall_not (by simpa using absent)]
  · refine .inr ⟨before, task, after, split, by simpa using hit, ?_⟩
    rw [popresult, search, split, List.eraseP_append_right _ (by simpa using skipped)]
    simp [hit]

section Results

def lastResult (results : List (Nat × List Bytes)) (taskid : Nat) : Option (List Bytes) :=
  (results.reverse.find? fun result => result.1 = taskid).map Prod.snd

theorem lastResult_append (results : List (Nat × List Bytes)) (taskid other : Nat) (iovec : List Bytes) :
    lastResult (results ++ [(taskid, iovec)]) other = if other = taskid then some iovec else lastResult results other := by
  by_cases same : other = taskid
  · simp [lastResult, same]
  · simp [lastResult, same, Ne.symm same]

theorem lastResult_none {results : List (Nat × List Bytes)}
    (absent : ∀ result ∈ results, result.1 ≠ taskid) : lastResult results taskid = none := by
  simpa [lastResult] using absent

end Results

inductive Counted : Nat → List Nat → Prop where
  | counting {next : Nat} (positive : 1 ≤ next) (small : next < 2 ^ 64) : Counted next (List.range' 2 (next - 1))
  | wrapped : Counted 0 (List.range' 2 (2 ^ 64 - 2))
  | last : Counted 1 (List.range' 2 (2 ^ 64 - 2) ++ [1])

namespace Counted
variable {next : Nat} {ids : List Nat}
variable (counted : Counted next ids)
include counted

theorem small : next < 2 ^ 64 := by
  cases counted with
  | counting positive small => exact small
  | wrapped | last => decide

theorem nodup : ids.Nodup := by
  cases counted with
  | counting positive small => exact List.nodup_range'
  | wrapped => exact List.nodup_range'
  | last =>
    refine List.nodup_append.mpr ⟨List.nodup_range', by simp, ?_⟩
    intro id member other single
    have bounds := List.mem_range'_1.mp member
    have one := List.mem_singleton.mp single
    omega

theorem positive : ∀ id ∈ ids, id ≠ 0 := by
  intro id member
  cases counted with
  | counting positive small | wrapped =>
    have bounds := List.mem_range'_1.mp member
    omega
  | last =>
    rcases List.mem_append.mp member with early | single
    · have bounds := List.mem_range'_1.mp early
      omega
    · have one := List.mem_singleton.mp single
      omega

theorem handOut (left : ids.length < 2 ^ 64 - 1)
    (fresh : taskid = next + 1 ∧ taskid < 2 ^ 64 ∨ next = 2 ^ 64 - 1 ∧ taskid = 1) : Counted taskid (ids ++ [taskid]) := by
  cases counted with
  | counting positive small =>
    rcases fresh with ⟨rfl, bound⟩ | ⟨rfl, rfl⟩
    · have extended : List.range' 2 (next - 1) ++ [next + 1] = List.range' 2 (next + 1 - 1) := by
        obtain ⟨count, rfl⟩ : ∃ count, next = count + 1 := ⟨next - 1, by omega⟩
        rw [Nat.add_sub_cancel, Nat.add_sub_cancel, List.range'_1_concat]
        congr 2
        omega
      rw [extended]
      exact .counting (by omega) bound
    · exact .last
  | wrapped =>
    rcases fresh with ⟨rfl, _⟩ | ⟨wrong, _⟩
    · exact .last
    · omega
  | last => simp at left

theorem wrap (full : next = 2 ^ 64 - 1) : Counted 0 ids := by
  cases counted with
  | counting positive small =>
    subst full
    exact .wrapped
  | wrapped | last => omega

end Counted

structure Known (log : Log) (task : QueuedTask) : Prop where
  pushed : ∃ tasktype, log.pushed[task.tag]? = some (task.sock, tasktype) ∧
    task.tasktype = if (lastResult log.results task.taskid).isSome then taskDone else tasktype
  iovec : task.iovec = (lastResult log.results task.taskid).getD []

def assigned (tasks : List QueuedTask) : List (Nat × Nat) :=
  (tasks.filter fun task => task.taskid ≠ 0).map fun task => (task.tag, task.taskid)

structure Consistent (observed : Observed) : Prop where
  numbers : (observed.tasks.map Task.tag).Perm (List.range observed.state.pushed)
  pushed : observed.log.pushed.length = observed.state.pushed
  ordered : observed.state.queue.tasklist.Pairwise fun first second => first.tag < second.tag
  known : ∀ task ∈ observed.tasks, Known observed.log task
  handed : (observed.log.handed.map fun hand => (hand.2.tag, hand.2.taskid)).Perm (assigned observed.tasks)
  counted : Counted observed.state.queue.nextFreeTaskid (observed.log.handed.map fun hand => hand.2.taskid)
  results : ∀ result ∈ observed.log.results, result.1 ∈ observed.log.handed.map fun hand => hand.2.taskid
  asked : ∀ hand ∈ observed.log.handed, observed.log.pushed[hand.2.tag]? = some (hand.2.sock, hand.2.tasktype) ∧
    hand.2.tasktype &&& taskClassMask = hand.1

theorem initial_consistent : Consistent .initial :=
  ⟨.refl _, rfl, .nil, by simp [Observed.tasks, Observed.initial, QueueState.initial, WorkQueue.initial], .refl _,
    .counting (by decide) (by decide), by simp [Observed.initial], by simp [Observed.initial]⟩

namespace Known
variable {log : Log} {task : QueuedTask}

variable (known : Known log task)
include known

theorem more (pushed : Int × Nat) : Known { log with pushed := log.pushed ++ [pushed] } task := by
  obtain ⟨tasktype, stored, typed⟩ := known.pushed
  refine ⟨⟨tasktype, ?_, typed⟩, known.iovec⟩
  exact List.getElem?_append_left (List.getElem?_eq_some_iff.mp stored).1 ▸ stored

theorem otherResult (other : task.taskid ≠ taskid) (iovec : List Bytes) :
    Known { log with results := log.results ++ [(taskid, iovec)] } task := by
  refine ⟨?_, ?_⟩
  · simpa only [lastResult_append, if_neg other] using known.pushed
  · simpa only [lastResult_append, if_neg other] using known.iovec

theorem ownResult (iovec : List Bytes) :
    Known { log with results := log.results ++ [(task.taskid, iovec)] } { task with iovec := iovec, tasktype := taskDone } := by
  obtain ⟨tasktype, stored, _⟩ := known.pushed
  refine ⟨⟨tasktype, stored, ?_⟩, ?_⟩ <;> simp [lastResult_append]

theorem unfinished (none : lastResult log.results task.taskid = none) :
    log.pushed[task.tag]? = some (task.sock, task.tasktype) ∧ task.iovec = [] := by
  obtain ⟨tasktype, stored, typed⟩ := known.pushed
  have same : task.tasktype = tasktype := by simpa [none] using typed
  exact ⟨same ▸ stored, by simpa [none] using known.iovec⟩

end Known

namespace Consistent
variable {observed : Observed}

section Logs
variable (consistent : Consistent observed)
include consistent

theorem handed_ids :
    (observed.log.handed.map fun hand => hand.2.taskid).Perm ((assigned observed.tasks).map Prod.snd) := by
  have ids := consistent.handed.map Prod.snd
  rwa [List.map_map] at ids

theorem id_unique (split : observed.tasks.Perm (task :: rest)) (worked : task.taskid ≠ 0) :
    ∀ other ∈ rest, other.taskid ≠ task.taskid := by
  intro other member same
  have ids := consistent.handed_ids.nodup_iff.mp consistent.counted.nodup
  have front : (assigned observed.tasks).Perm (assigned (task :: rest)) := (split.filter _).map _
  have distinct := (front.map Prod.snd).nodup_iff.mp ids
  simp only [assigned, worked, ne_eq, not_false_eq_true, decide_true, List.filter_cons_of_pos, List.map_cons,
    List.nodup_cons] at distinct
  refine distinct.1 (List.mem_map.mpr ⟨(other.tag, other.taskid), ?_, same⟩)
  exact List.mem_map.mpr ⟨other, List.mem_filter.mpr ⟨member, by simpa [same] using worked⟩, rfl⟩

theorem length_tasks : observed.tasks.length = observed.state.pushed := by
  have lengths := consistent.numbers.length_eq
  rwa [List.length_map, List.length_range] at lengths

/-- As long as a task waits for a worker, not all ids are used up. -/
theorem ids_left (few : observed.state.pushed < 2 ^ 64) (split : observed.tasks.Perm (task :: rest)) (waiting : task.taskid = 0) :
    (observed.log.handed.map fun hand => hand.2.taskid).length < 2 ^ 64 - 1 := by
  have count := consistent.handed.length_eq
  have front : (assigned observed.tasks).length = (assigned rest).length := by
    have same : assigned (task :: rest) = assigned rest := by simp [assigned, waiting]
    rw [← same]
    exact ((split.filter _).map _).length_eq
  have fewer : (assigned rest).length ≤ rest.length := by
    rw [assigned, List.length_map]
    exact List.length_filter_le _ _
  have all := split.length_eq
  have total := consistent.length_tasks
  simp only [List.length_map, List.length_cons] at *
  omega

theorem no_result (unused : taskid ∉ observed.log.handed.map fun hand => hand.2.taskid) :
    lastResult observed.log.results taskid = none := by
  apply lastResult_none
  intro result member same
  exact unused (same ▸ consistent.results result member)

theorem no_result_zero : lastResult observed.log.results 0 = none :=
  consistent.no_result fun member => consistent.counted.positive 0 member rfl

theorem reordered {tasks : List QueuedTask} (tags : tasks.map Task.tag = observed.state.queue.tasklist.map Task.tag) :
    tasks.Pairwise fun first second => first.tag < second.tag := by
  have ordered := List.pairwise_map.mpr consistent.ordered
  rw [← tags] at ordered
  exact List.pairwise_map.mp ordered

theorem added (sock : Int) (tasktype : Nat) :
    Consistent ⟨⟨{ observed.state.queue with
          tasklist := observed.state.queue.tasklist ++ [⟨observed.state.pushed, 0, tasktype, sock, []⟩] },
        observed.state.pushed + 1⟩,
      { observed.log with pushed := observed.log.pushed ++ [(sock, tasktype)] }⟩ := by
  have tasks : (observed.state.queue.tasklist ++ [(⟨observed.state.pushed, 0, tasktype, sock, []⟩ : QueuedTask)] ++
      observed.log.returned).Perm (⟨observed.state.pushed, 0, tasktype, sock, []⟩ :: observed.tasks) := by
    rw [List.append_assoc, Observed.tasks]
    exact List.perm_middle
  have below : ∀ task ∈ observed.tasks, task.tag < observed.state.pushed := by
    intro task member
    exact List.mem_range.mp (consistent.numbers.subset (List.mem_map_of_mem member))
  refine ⟨?_, ?_, ?_, ?_, ?_, consistent.counted, consistent.results, ?_⟩
  · refine (tasks.map Task.tag).trans ?_
    rw [List.range_succ, List.map_cons]
    exact (consistent.numbers.cons _).trans (List.perm_append_singleton _ _).symm
  · simp [consistent.pushed]
  · refine List.pairwise_append.mpr ⟨consistent.ordered, List.pairwise_singleton _ _, ?_⟩
    intro task member new single
    rw [List.mem_singleton.mp single]
    exact below task (List.mem_append_left _ member)
  · intro task member
    rcases List.mem_cons.mp (tasks.subset member) with rfl | old
    · refine ⟨⟨tasktype, ?_, ?_⟩, ?_⟩ <;> simp [consistent.no_result_zero, ← consistent.pushed]
    · exact (consistent.known task old).more _
  · refine consistent.handed.trans (List.Perm.symm ?_)
    have same : assigned ((⟨observed.state.pushed, 0, tasktype, sock, []⟩ : QueuedTask) :: observed.tasks) = assigned observed.tasks := by
      simp [assigned]
    rw [← same]
    exact (tasks.filter _).map _
  · intro hand member
    obtain ⟨stored, family⟩ := consistent.asked hand member
    exact ⟨List.getElem?_append_left (List.getElem?_eq_some_iff.mp stored).1 ▸ stored, family⟩

end Logs

private theorem tasks_split (before after returned : List QueuedTask) (task : QueuedTask) :
    (before ++ task :: after ++ returned).Perm (task :: (before ++ after ++ returned)) := by
  rw [List.append_assoc, List.append_assoc]
  exact List.perm_middle

private theorem tasks_perm (split : observed.state.queue.tasklist = before ++ task :: after) :
    observed.tasks.Perm (task :: (before ++ after ++ observed.log.returned)) := by
  rw [Observed.tasks, split]
  exact tasks_split _ _ _ _

theorem handOut (consistent : Consistent observed) (few : observed.state.pushed < 2 ^ 64)
    (split : observed.state.queue.tasklist = before ++ task :: after) (hit : outstanding tasktype task = true)
    (fresh : taskid = observed.state.queue.nextFreeTaskid + 1 ∧ taskid < 2 ^ 64 ∨
      observed.state.queue.nextFreeTaskid = 2 ^ 64 - 1 ∧ taskid = 1) :
    Consistent ⟨⟨⟨taskid, before ++ { task with taskid := taskid } :: after⟩, observed.state.pushed⟩,
      { observed.log with handed := observed.log.handed ++ [(tasktype, { task with taskid := taskid })] }⟩ := by
  obtain ⟨family, waiting⟩ := outstanding_iff.mp hit
  have old := tasks_perm split
  have new := tasks_split before after observed.log.returned { task with taskid := taskid }
  have counted := consistent.counted.handOut (consistent.ids_left few old waiting) fresh
  have positive : taskid ≠ 0 := counted.positive taskid (by simp)
  have unused : taskid ∉ observed.log.handed.map fun hand => hand.2.taskid := by
    intro member
    exact (List.nodup_append.mp counted.nodup).2.2 taskid member taskid (by simp) rfl
  have stored := ((consistent.known task (old.symm.subset (by simp))).unfinished (waiting ▸ consistent.no_result_zero))
  refine ⟨?_, consistent.pushed, ?_, ?_, ?_, ?_, ?_, ?_⟩
  · exact (new.map Task.tag).trans ((old.map Task.tag).symm.trans consistent.numbers)
  · exact consistent.reordered (by simp [split])
  · intro other member
    rcases List.mem_cons.mp (new.subset member) with rfl | kept
    · refine ⟨⟨task.tasktype, stored.1, ?_⟩, ?_⟩ <;> simp [consistent.no_result unused, stored.2]
    · obtain ⟨pushed, iovec⟩ := consistent.known other (old.symm.subset (List.mem_cons_of_mem _ kept))
      exact ⟨pushed, iovec⟩
  · refine List.Perm.trans ?_ ((new.filter _).map _).symm
    have same : (assigned observed.tasks).Perm (assigned (before ++ after ++ observed.log.returned)) := by
      refine ((old.filter _).map _).trans ?_
      simp [waiting, assigned]
    rw [List.map_append, List.map_singleton, List.filter_cons_of_pos (by simpa using positive), List.map_cons]
    exact (List.perm_append_singleton _ _).trans ((consistent.handed.trans same).cons _)
  · rw [List.map_append]
    exact counted
  · intro result member
    rw [List.map_append]
    exact List.mem_append_left _ (consistent.results result member)
  · intro hand member
    rcases List.mem_append.mp member with early | single
    · exact consistent.asked hand early
    · cases List.mem_singleton.mp single
      exact ⟨stored.1, family⟩

theorem finished (consistent : Consistent observed)
    (split : observed.state.queue.tasklist = before ++ task :: after) (worked : task.taskid ≠ 0) (iovec : List Bytes) :
    Consistent ⟨⟨{ observed.state.queue with
          tasklist := before ++ { task with iovec := iovec, tasktype := taskDone } :: after }, observed.state.pushed⟩,
      { observed.log with results := observed.log.results ++ [(task.taskid, iovec)] }⟩ := by
  have old := tasks_perm split
  have new := tasks_split before after observed.log.returned { task with iovec := iovec, tasktype := taskDone }
  have same : (assigned observed.tasks).Perm
      (assigned ({ task with iovec := iovec, tasktype := taskDone } :: (before ++ after ++ observed.log.returned))) := by
    refine ((old.filter _).map _).trans ?_
    simp [assigned, worked]
  have handed := consistent.handed.trans same
  refine ⟨?_, consistent.pushed, ?_, ?_, ?_, consistent.counted, ?_, consistent.asked⟩
  · exact (new.map Task.tag).trans ((old.map Task.tag).symm.trans consistent.numbers)
  · exact consistent.reordered (by simp [split])
  · intro other member
    rcases List.mem_cons.mp (new.subset member) with rfl | kept
    · exact (consistent.known task (old.symm.subset (by simp))).ownResult iovec
    · have known := consistent.known other (old.symm.subset (List.mem_cons_of_mem _ kept))
      exact known.otherResult (consistent.id_unique old worked other kept) iovec
  · exact handed.trans ((new.filter _).map _).symm
  · intro result member
    rcases List.mem_append.mp member with early | single
    · exact consistent.results result early
    · cases List.mem_singleton.mp single
      refine consistent.handed_ids.symm.subset (List.mem_map.mpr ⟨(task.tag, task.taskid), ?_, rfl⟩)
      exact same.symm.subset (by simp [assigned, worked])

theorem givenBack (consistent : Consistent observed) (split : observed.state.queue.tasklist = before ++ task :: after) :
    Consistent ⟨⟨{ observed.state.queue with tasklist := before ++ after }, observed.state.pushed⟩,
      { observed.log with returned := observed.log.returned ++ [task] }⟩ := by
  have moved : (before ++ after ++ (observed.log.returned ++ [task])).Perm observed.tasks := by
    rw [Observed.tasks, split]
    refine List.Perm.trans ?_ (tasks_split before after observed.log.returned task).symm
    rw [← List.append_assoc]
    exact List.perm_append_singleton _ _
  have shorter : (before ++ after).Sublist observed.state.queue.tasklist := by
    rw [split]
    exact (List.sublist_cons_self task after).append_left before
  refine ⟨(moved.map _).trans consistent.numbers, consistent.pushed, consistent.ordered.sublist shorter, ?_,
    consistent.handed.trans ((moved.filter _).map _).symm, consistent.counted, consistent.results, consistent.asked⟩
  intro other member
  obtain ⟨pushed, iovec⟩ := consistent.known other (moved.subset member)
  exact ⟨pushed, iovec⟩

theorem step {event : QueueEvent} {after : Observed} (consistent : Consistent observed) (permitted : HandOff observed event)
    (moved : observed.Step event after) : Consistent after := by
  obtain ⟨kind, few⟩ := permitted
  subst moved
  cases event with
  | push allocated sock tasktype =>
    cases allocated with
    | true => exact consistent.added sock tasktype
    | false => exact consistent
  | pop tasktype =>
    rcases poptask_cases consistent.counted.small tasktype with
      ⟨next, popped, change⟩ | ⟨before, task, after, taskid, split, hit, _, popped, fresh⟩
    · simp only [QueueState.apply, Observed.record, popped]
      have counted : Counted next (observed.log.handed.map fun hand => hand.2.taskid) := by
        rcases change with rfl | ⟨full, rfl⟩
        · exact consistent.counted
        · exact consistent.counted.wrap full
      exact ⟨consistent.numbers, consistent.pushed, consistent.ordered, consistent.known, consistent.handed, counted,
        consistent.results, consistent.asked⟩
    · simp only [QueueState.apply, Observed.record, popped]
      exact consistent.handOut few split hit fresh
  | pushresult taskid iovec =>
    rcases pushresult_cases observed.state.queue taskid iovec with ⟨pushed, _⟩ | ⟨before, task, after, split, same, pushed⟩
    · simpa [QueueState.apply, Observed.record, pushed] using consistent
    · subst same
      simp only [QueueState.apply, Observed.record, pushed, if_true]
      exact consistent.finished split kind iovec
  | popresult =>
    rcases popresult_cases observed.state.queue with ⟨popped, _⟩ | ⟨before, task, after, split, _, popped⟩
    · simpa [QueueState.apply, Observed.record, popped] using consistent
    · simp only [QueueState.apply, Observed.record, popped]
      exact consistent.givenBack split
  | pushsuccess taskid => exact kind.elim
  | cancel sock => exact kind.elim

end Consistent

theorem run_consistent {events : List QueueEvent} {final : Observed}
    (run : Run Observed.Step HandOff .initial events final) : Consistent final :=
  run.invariant Consistent (fun _ _ _ consistent permitted moved => consistent.step permitted moved) initial_consistent

/-- One `popresult` returned the task with this id, with the socket it was pushed with
and the result that was pushed for the id. -/
def Returned (log : Log) (taskid : Nat) : Prop :=
  ∃ before task after, log.returned = before ++ task :: after ∧ task.taskid = taskid ∧
    (∀ other ∈ before ++ after, other.taskid ≠ taskid) ∧ lastResult log.results taskid = some task.iovec ∧
    (∃ tasktype, log.pushed[task.tag]? = some (task.sock, tasktype)) ∧
    (task.tag, taskid) ∈ log.handed.map fun hand => (hand.2.tag, hand.2.taskid)

def Waiting (observed : Observed) (taskid : Nat) : Prop :=
  (∃ task ∈ observed.state.queue.tasklist, task.taskid = taskid ∧ task.tasktype = taskDone) ∧
  ∀ task ∈ observed.log.returned, task.taskid ≠ taskid

/-- What the callers of the queue rely on. -/
structure HandedOff (observed : Observed) : Prop where
  once : (observed.log.handed.map fun hand => hand.2.tag).Nodup
  ids : (observed.log.handed.map fun hand => hand.2.taskid).Nodup ∧ ∀ hand ∈ observed.log.handed, hand.2.taskid ≠ 0
  family : ∀ hand ∈ observed.log.handed, observed.log.pushed[hand.2.tag]? = some (hand.2.sock, hand.2.tasktype) ∧
    hand.2.tasktype &&& taskClassMask = hand.1
  oldest : ∀ tasktype task, (observed.state.queue.poptask tasktype).2 = some task →
    ∀ number < task.tag, ∀ sock other, observed.log.pushed[number]? = some (sock, other) → other &&& taskClassMask = tasktype →
      number ∈ (observed.log.handed.map fun hand => hand.2.tag) ∨ number ∈ observed.log.returned.map Task.tag
  returnedOnce : (observed.log.returned.map Task.tag).Nodup
  results : ∀ result ∈ observed.log.results, Returned observed.log result.1 ∨ Waiting observed result.1
  refused : ∀ taskid iovec, (observed.state.queue.pushresult taskid iovec).2 = -1 ↔
    ∀ task ∈ observed.state.queue.tasklist, task.taskid ≠ taskid

namespace Consistent
variable {observed : Observed}
variable (consistent : Consistent observed)
include consistent

theorem once : (observed.log.handed.map fun hand => hand.2.tag).Nodup := by
  have tags := consistent.handed.map Prod.fst
  rw [List.map_map] at tags
  refine tags.nodup_iff.mpr ?_
  rw [assigned, List.map_map]
  exact (consistent.numbers.nodup_iff.mpr List.nodup_range).sublist (List.filter_sublist.map Task.tag)

theorem oldest (popped : (observed.state.queue.poptask tasktype).2 = some task) {number : Nat} (older : number < task.tag) {sock : Int}
    {other : Nat} (pushed : observed.log.pushed[number]? = some (sock, other)) (family : other &&& taskClassMask = tasktype) :
    number ∈ (observed.log.handed.map fun hand => hand.2.tag) ∨ number ∈ observed.log.returned.map Task.tag := by
  rcases poptask_cases consistent.counted.small tasktype with
    ⟨next, got, _⟩ | ⟨before, found, after, taskid, split, hit, skipped, got, _⟩
  · simp [got] at popped
  simp only [got, Option.some.injEq] at popped
  subst popped
  have within : number < observed.state.pushed := by
    rw [← consistent.pushed]
    exact (List.getElem?_eq_some_iff.mp pushed).1
  obtain ⟨task, member, rfl⟩ := List.mem_map.mp (consistent.numbers.symm.subset (List.mem_range.mpr within))
  rcases List.mem_append.mp member with listed | returned
  · by_cases worked : task.taskid = 0
    · -- It would have been found before the one that was.
      exfalso
      have stored := ((consistent.known task member).unfinished (worked ▸ consistent.no_result_zero)).1
      rw [pushed] at stored
      cases stored
      have hits : outstanding tasktype task = true := outstanding_iff.mpr ⟨family, worked⟩
      have ordered := consistent.ordered
      rw [split] at ordered listed
      rcases List.mem_append.mp listed with front | back
      · simp [skipped task front] at hits
      · rcases List.mem_cons.mp back with rfl | later
        · exact lt_irrefl _ older
        · have above := (List.pairwise_cons.mp (List.pairwise_append.mp ordered).2.1).1 task later
          exact lt_asymm older above
    · refine .inl ?_
      have inside : (task.tag, task.taskid) ∈ assigned observed.tasks :=
        List.mem_map.mpr ⟨task, List.mem_filter.mpr ⟨member, by simpa using worked⟩, rfl⟩
      obtain ⟨hand, held, same⟩ := List.mem_map.mp (consistent.handed.symm.subset inside)
      exact List.mem_map.mpr ⟨hand, held, congrArg Prod.fst same⟩
  · exact .inr (List.mem_map_of_mem returned)

theorem delivered {result : Nat × List Bytes} (member : result ∈ observed.log.results) :
    Returned observed.log result.1 ∨ Waiting observed result.1 := by
  have handed := consistent.results result member
  have positive := consistent.counted.positive _ handed
  obtain ⟨⟨tag, taskid⟩, inside, same⟩ := List.mem_map.mp (consistent.handed_ids.subset handed)
  obtain ⟨task, kept, equal⟩ := List.mem_map.mp inside
  cases equal
  obtain ⟨present, _⟩ := List.mem_filter.mp kept
  have own : task.taskid = result.1 := same
  obtain ⟨iovec, last⟩ : ∃ iovec, lastResult observed.log.results result.1 = some iovec := by
    apply Option.isSome_iff_exists.mp
    rw [lastResult, Option.isSome_map, List.find?_isSome]
    exact ⟨result, by simpa using member, by simp⟩
  obtain ⟨⟨tasktype, stored, typed⟩, held⟩ := consistent.known task present
  rw [own, last] at typed held
  rcases List.mem_append.mp present with listed | returned
  · refine .inr ⟨⟨task, listed, own, by simpa using typed⟩, ?_⟩
    intro other back equal
    obtain ⟨before, after, split⟩ := List.append_of_mem listed
    exact consistent.id_unique (tasks_perm split) (own ▸ positive) other (by simp [back]) (equal.trans own.symm)
  · obtain ⟨before, after, split⟩ := List.append_of_mem returned
    have perm : observed.tasks.Perm (task :: (observed.state.queue.tasklist ++ (before ++ after))) := by
      rw [Observed.tasks, split, ← List.append_assoc, ← List.append_assoc]
      exact List.perm_middle
    refine .inl ⟨before, task, after, split, own, ?_, by simpa [last] using held.symm, ⟨tasktype, stored⟩, ?_⟩
    · intro other elsewhere equal
      refine consistent.id_unique perm (own ▸ positive) other ?_ (equal.trans own.symm)
      exact List.mem_append_right _ elsewhere
    · exact consistent.handed.symm.subset (own ▸ inside)

theorem handedOff : HandedOff observed := by
  refine ⟨consistent.once, ⟨consistent.counted.nodup, ?_⟩, consistent.asked, ?_, ?_, ?_, ?_⟩
  · intro hand member
    exact consistent.counted.positive _ (List.mem_map_of_mem member)
  · intro tasktype task popped number older sock other pushed family
    exact consistent.oldest popped older pushed family
  · have tags := consistent.numbers.nodup_iff.mpr List.nodup_range
    exact tags.sublist ((List.sublist_append_right _ _).map Task.tag)
  · intro result member
    exact consistent.delivered member
  · intro taskid iovec
    rcases pushresult_cases observed.state.queue taskid iovec with ⟨pushed, absent⟩ | ⟨before, task, after, split, same, pushed⟩
    · simp only [pushed, true_iff]
      exact absent
    · simp only [pushed, split]
      constructor
      · intro wrong
        exact absurd wrong (by decide)
      · intro absent
        exact absurd same (absent task (by simp))

theorem drained (few : observed.state.pushed < 2 ^ 64) :
    ∃ calls last, Run Observed.Step HandOff observed (List.replicate calls .popresult) last ∧
      last.log.results = observed.log.results ∧ last.state.queue.popresult.2 = none := by
  obtain ⟨size, bound⟩ : ∃ size, observed.state.queue.tasklist.length = size := ⟨_, rfl⟩
  -- Every call that returns something makes the list shorter.
  induction size generalizing observed with
  | zero =>
    refine ⟨0, observed, .done _, rfl, ?_⟩
    simp [popresult, List.eq_nil_of_length_eq_zero bound]
  | succ size ih =>
    rcases popresult_cases observed.state.queue with ⟨popped, _⟩ | ⟨before, task, after, split, _, popped⟩
    · exact ⟨0, observed, .done _, rfl, by rw [popped]⟩
    · have moved : observed.Step .popresult ⟨observed.state.apply .popresult, observed.record .popresult⟩ := rfl
      have permitted : HandOff observed .popresult := ⟨trivial, few⟩
      have shorter : (observed.state.apply .popresult).queue.tasklist.length = size := by
        simp only [QueueState.apply, popped]
        rw [split] at bound
        simp only [List.length_append, List.length_cons] at bound ⊢
        omega
      obtain ⟨calls, last, run, kept, none⟩ := ih (consistent.step permitted moved) few shorter
      refine ⟨calls + 1, last, .next permitted moved run, ?_, none⟩
      rw [kept]
      simp only [Observed.record, popped]

end Consistent

/-- Whatever the order of the calls, tasks are handed out once and in order, and after
enough calls of `popresult` each result has been returned exactly once. -/
theorem hand_off {events : List QueueEvent} {final : Observed} (run : Run Observed.Step HandOff .initial events final) :
    HandedOff final ∧
    ∃ calls last, Run Observed.Step HandOff final (List.replicate calls .popresult) last ∧
      ∀ result ∈ final.log.results, Returned last.log result.1 := by
  have consistent := run_consistent run
  have few : final.state.pushed < 2 ^ 64 :=
    run.invariant (fun observed => observed.state.pushed < 2 ^ 64)
      (fun _ _ _ _ permitted moved => moved ▸ permitted.2) (by decide)
  refine ⟨consistent.handedOff, ?_⟩
  obtain ⟨calls, last, more, kept, none⟩ := consistent.drained few
  refine ⟨calls, last, more, fun result member => ?_⟩
  rcases (run_consistent (run.trans more)).delivered (kept ▸ member) with returned | waiting
  · exact returned
  · obtain ⟨⟨task, listed, _, done⟩, _⟩ := waiting
    rcases popresult_cases last.state.queue with ⟨_, absent⟩ | ⟨_, _, _, _, _, popped⟩
    · exact absurd done (absent task listed)
    · rw [popped] at none
      cases none

/-- One task through the queue. -/
theorem hand_off_one_task :
    ∃ final, Run Observed.Step HandOff .initial [.push true 7 taskStats, .pop taskStats, .pushresult 2 [[65]], .popresult] final ∧
      final.log.returned = [⟨0, 2, taskDone, 7, [[65]]⟩] ∧ HandedOff final := by
  have run : Run Observed.Step HandOff .initial [.push true 7 taskStats, .pop taskStats, .pushresult 2 [[65]], .popresult]
      ⟨⟨⟨2, []⟩, 1⟩, ⟨[(7, taskStats)], [(taskStats, ⟨0, 2, taskStats, 7, []⟩)], [(2, [[65]])], [⟨0, 2, taskDone, 7, [[65]]⟩]⟩⟩ := by
    refine .next ⟨trivial, by decide⟩ rfl (.next ⟨trivial, by decide⟩ rfl (.next ⟨by decide, by decide⟩ rfl
      (.next ⟨trivial, by decide⟩ rfl (.done _))))
  exact ⟨_, run, rfl, (hand_off run).1⟩

end BtServer.Proofs.TaskHandOff
