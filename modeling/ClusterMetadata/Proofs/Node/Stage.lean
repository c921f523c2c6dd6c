import ClusterMetadata.Node.Stage
import Mathlib.Data.List.Perm.Basic
import Mathlib.Logic.Relation

/-!
What becomes of the jobs of a stage, however those who ask for jobs, the workers and the one who
closes it take their turns: each accepted job is taken once, in the order of acceptance, and none
that was refused; what is in flight is what is queued or taken and not accounted for; and the
workers leave nothing behind (`steps_disciplined`).
-/

namespace ClusterMetadata.Stage

variable {Job : Type} {s t : Stage Job} {job : Job} {i : Nat}

theorem execute_eq_ok_iff : s.execute job = .ok t ↔
    s.closed = false ∧ t = { s with queue := s.queue ++ [job], inFlight := s.inFlight + 1 } := by
  cases hc : s.closed <;> simp [execute, hc, eq_comm]

theorem take_eq_some_iff : s.take = some (job, t) ↔ s.running.length < s.workers ∧
    ∃ jobs, s.queue = job :: jobs ∧
      t = { s with queue := jobs, running := s.running ++ [job] } := by
  cases hq : s.queue
  case nil => simp [take, hq]
  case cons job' jobs =>
    by_cases hw : s.running.length < s.workers
    case neg => simp [take, hq, hw]
    case pos =>
      simp only [take, hq, hw, if_true, Option.some.injEq, Prod.mk.injEq, true_and,
        List.cons.injEq]
      constructor
      case mp => exact fun ⟨hj, ht⟩ => ⟨jobs, ⟨hj, rfl⟩, hj ▸ ht.symm⟩
      case mpr =>
        rintro ⟨_, ⟨hj, rfl⟩, ht⟩
        exact ⟨hj, hj ▸ ht.symm⟩

theorem finish_eq (h : s.running[i]? = some job) : s.finish i =
    { s with running := s.running.eraseIdx i, inFlight := s.inFlight - 1 } :=
  if_pos (List.getElem?_eq_some_iff.mp h).fst

theorem running_leave (s : Stage Job) : s.leave.running = s.running := by
  rw [leave]
  split <;> rfl

theorem closed_leave (s : Stage Job) : s.leave.closed = s.closed := by
  rw [leave]
  split <;> rfl

-- A request for a job has a number of its own.
abbrev Call (Job : Type) := Nat × Job

-- A stage and what has been seen on it so far, each list oldest first.
structure History (Job : Type) where
  stage : Stage (Call Job)
  calls : Nat
  accepted : List (Call Job)
  refused : List (Call Job)
  taken : List (Call Job)
  ended : List (Call Job)
  -- Those that ended by a panic.
  panicked : List (Call Job)
  accounted : List (Call Job)

namespace History

def start (Job : Type) (name : String) (workers : Nat) : History Job where
  stage := .new name workers
  calls := 0
  accepted := []
  refused := []
  taken := []
  ended := []
  panicked := []
  accounted := []

variable {h h' : History Job} {name : String} {workers : Nat} {call : Call Job}

-- Whoever asks for a job, any worker and whoever closes the stage may be next. A worker whose job
-- has ended accounts for it in a step of its own.
inductive Step : History Job → History Job → Prop
  | accepts {h : History Job} {job : Job} {stage : Stage (Call Job)}
      (ran : h.stage.execute (h.calls, job) = .ok stage) :
      Step h { h with
        stage, calls := h.calls + 1, accepted := h.accepted ++ [(h.calls, job)] }
  | refuses {h : History Job} {job : Job} {e : StageError}
      (ran : h.stage.execute (h.calls, job) = .error e) :
      Step h { h with calls := h.calls + 1, refused := h.refused ++ [(h.calls, job)] }
  | takes {h : History Job} {call : Call Job} {stage : Stage (Call Job)}
      (took : h.stage.take = some (call, stage)) :
      Step h { h with stage, taken := h.taken ++ [call] }
  | ends {h : History Job} {call : Call Job} (panics : Bool) (running : call ∈ h.stage.running)
      (unfinished : call ∉ h.ended) :
      Step h { h with
        ended := h.ended ++ [call]
        panicked := if panics then h.panicked ++ [call] else h.panicked }
  | accounts {h : History Job} {call : Call Job} {i : Nat}
      (running : h.stage.running[i]? = some call)
      (finished : call ∈ h.ended) :
      Step h { h with stage := h.stage.finish i, accounted := h.accounted ++ [call] }
  | closes (h : History Job) : Step h { h with stage := h.stage.shutdown }
  | leaves (h : History Job) : Step h { h with stage := h.stage.leave }

-- What was taken and what is queued was accepted in this order. Calls do not get mixed up, and
-- each taken job is with a worker until it is accounted for.
structure Orderly (workers : Nat) (h : History Job) : Prop where
  queued    : h.taken ++ h.stage.queue = h.accepted
  distinct  : (h.accepted ++ h.refused).Nodup
  numbered  : ∀ call ∈ h.accepted ++ h.refused, call.1 < h.calls
  taken     : h.taken.Perm (h.accounted ++ h.stage.running)
  inFlight  : h.stage.inFlight = h.stage.queue.length + h.stage.running.length
  ended     : h.ended.Nodup ∧ h.ended ⊆ h.taken
  accounted : h.accounted ⊆ h.ended
  -- Workers leave only when nothing is left to take, and nothing comes any more.
  crew      : h.stage.running.length ≤ h.stage.workers ∧ h.stage.workers ≤ workers
  left      : h.stage.workers < workers → h.stage.closed = true ∧ h.stage.queue = []

theorem orderly_start : (start Job name workers).Orderly (max workers 1) where
  queued := rfl
  distinct := .nil
  numbered := by simp [start]
  taken := .nil
  inFlight := rfl
  ended := ⟨.nil, List.nil_subset _⟩
  accounted := List.nil_subset _
  crew := ⟨Nat.zero_le _, Nat.le_refl _⟩
  left := fun h => absurd h (Nat.lt_irrefl _)

section

variable (o : h.Orderly workers)

include o

theorem Orderly.nodup_accepted : h.accepted.Nodup := (List.nodup_append.mp o.distinct).left

theorem Orderly.nodup_taken : h.taken.Nodup :=
  (List.nodup_append.mp (o.queued ▸ o.nodup_accepted)).left

-- The number of a new call has not been given yet.
theorem Orderly.distinct_call (job : Job) :
    ((h.calls, job) :: (h.accepted ++ h.refused)).Nodup :=
  List.nodup_cons.mpr ⟨fun hm => Nat.lt_irrefl _ (o.numbered _ hm), o.distinct⟩

theorem Orderly.numbered_call (job : Job) :
    ∀ call ∈ (h.calls, job) :: (h.accepted ++ h.refused), call.1 < h.calls + 1 :=
  List.forall_mem_cons.mpr ⟨Nat.lt_succ_self _, fun _ hm => Nat.lt_succ_of_lt (o.numbered _ hm)⟩

end

theorem Orderly.step (o : h.Orderly workers) (hs : Step h h') : h'.Orderly workers := by
  cases hs
  case accepts job stage ran =>
    obtain ⟨hc, rfl⟩ := execute_eq_ok_iff.mp ran
    have hp : (h.accepted ++ [(h.calls, job)] ++ h.refused).Perm
        ((h.calls, job) :: (h.accepted ++ h.refused)) := by
      rw [List.append_assoc]
      exact List.perm_middle
    exact { o with
      queued := by rw [← List.append_assoc, o.queued]
      distinct := hp.nodup_iff.mpr (o.distinct_call job)
      numbered := fun call hm => o.numbered_call job call (hp.mem_iff.mp hm)
      inFlight := by simp [o.inFlight, Nat.add_right_comm]
      left := fun hw => absurd hc (by simp [(o.left hw).left]) }
  case refuses job e ran =>
    have hp : (h.accepted ++ (h.refused ++ [(h.calls, job)])).Perm
        ((h.calls, job) :: (h.accepted ++ h.refused)) := by
      rw [← List.append_assoc]
      exact List.perm_append_singleton ..
    exact { o with
      distinct := hp.nodup_iff.mpr (o.distinct_call job)
      numbered := fun call hm => o.numbered_call job call (hp.mem_iff.mp hm) }
  case takes call stage took =>
    obtain ⟨hw, queue, hq, rfl⟩ := take_eq_some_iff.mp took
    have hl : h.stage.queue.length = queue.length + 1 := congrArg List.length hq
    exact { o with
      queued := by simpa [hq] using o.queued
      taken := by simpa using o.taken.append_right [call]
      inFlight := by
        rw [List.length_append, List.length_singleton, o.inFlight, hl]
        exact Nat.add_right_comm ..
      ended := ⟨o.ended.left, fun c hc => List.mem_append_left _ (o.ended.right hc)⟩
      crew := ⟨by rwa [List.length_append], o.crew.right⟩
      left := fun hl => absurd hq (by simp [(o.left hl).right]) }
  case ends call panics running unfinished =>
    have ht : call ∈ h.taken := o.taken.mem_iff.mpr (List.mem_append_right _ running)
    have hp := List.perm_append_singleton call h.ended
    exact { o with
      ended := ⟨hp.nodup_iff.mpr (List.nodup_cons.mpr ⟨unfinished, o.ended.left⟩),
        List.append_subset.mpr ⟨o.ended.right, by simpa using ht⟩⟩
      accounted := fun c hc => List.mem_append_left _ (o.accounted hc) }
  case accounts call i running finished =>
    rw [finish_eq running]
    have ⟨hi, hc⟩ := List.getElem?_eq_some_iff.mp running
    have hp : (call :: h.stage.running.eraseIdx i).Perm h.stage.running :=
      hc ▸ List.getElem_cons_eraseIdx_perm hi
    have hl : (h.stage.running.eraseIdx i).length + 1 = h.stage.running.length := hp.length_eq
    exact { o with
      taken := by
        rw [List.append_assoc]
        exact o.taken.trans (hp.symm.append_left _)
      inFlight := by
        rw [o.inFlight, ← hl]
        rfl
      accounted := List.append_subset.mpr ⟨o.accounted, by simpa using finished⟩
      crew := ⟨Nat.le_of_succ_le (Nat.le_trans (Nat.le_of_eq hl) o.crew.left), o.crew.right⟩ }
  case closes => exact { o with left := fun hw => ⟨rfl, (o.left hw).right⟩ }
  case leaves =>
    rw [leave]
    split
    case isFalse => exact o
    case isTrue hl =>
      have ⟨hc, hq, hw⟩ := hl
      exact { o with
        crew := ⟨Nat.le_sub_one_of_lt hw, Nat.le_trans (Nat.sub_le ..) o.crew.right⟩
        left := fun _ => ⟨hc, List.isEmpty_iff.mp hq⟩ }

theorem Orderly.steps (o : h.Orderly workers) (hs : Relation.ReflTransGen Step h h') :
    h'.Orderly workers := by
  induction hs
  case refl        => exact o
  case tail _ h hi => exact hi.step h

-- A lone worker is between two jobs, or has one in hand that comes after all that ended.
inductive OneAtATime (h : History Job) : Prop
  | between (ended : h.taken = h.ended)
  | working {call : Call Job} (running : h.stage.running = [call])
      (ended : h.taken = h.ended ++ [call])

theorem OneAtATime.congr (a : h.OneAtATime) (hr : h'.stage.running = h.stage.running)
    (ht : h'.taken = h.taken) (he : h'.ended = h.ended) : h'.OneAtATime := by
  cases a
  case between ended         => exact .between (by rw [ht, he, ended])
  case working running ended => exact .working (hr.trans running) (by rw [ht, he, ended])

theorem OneAtATime.step (a : h.OneAtATime) (o : h.Orderly 1) (hs : Step h h') :
    h'.OneAtATime := by
  cases hs
  case accepts job stage ran =>
    obtain ⟨-, rfl⟩ := execute_eq_ok_iff.mp ran
    exact a.congr rfl rfl rfl
  case refuses job e ran => exact a.congr rfl rfl rfl
  case takes call stage took =>
    obtain ⟨hw, queue, hq, rfl⟩ := take_eq_some_iff.mp took
    have hr : h.stage.running = [] :=
      List.length_eq_zero_iff.mp (Nat.lt_one_iff.mp (Nat.lt_of_lt_of_le hw o.crew.right))
    cases a
    case between ended =>
      exact @working _ _ call (by rw [hr, List.nil_append]) (by rw [ended])
    case working running ended => cases hr.symm.trans running
  case ends call panics running unfinished =>
    cases a
    case between ended =>
      have ht : call ∈ h.taken := o.taken.mem_iff.mpr (List.mem_append_right _ running)
      exact absurd (ended ▸ ht) unfinished
    case working running' ended =>
      obtain rfl := List.mem_singleton.mp (running' ▸ running)
      exact .between ended
  case accounts call i running finished =>
    cases a
    case between ended          => exact .between ended
    case working running' ended =>
      obtain rfl := List.mem_singleton.mp (running' ▸ List.mem_of_getElem? running)
      have hn := List.nodup_append.mp (ended ▸ o.nodup_taken)
      exact absurd rfl (hn.right.right _ finished _ (List.mem_singleton_self _))
  case closes => exact a.congr rfl rfl rfl
  case leaves => exact a.congr (running_leave _) rfl rfl

theorem OneAtATime.steps (a : h.OneAtATime) (o : h.Orderly 1)
    (hs : Relation.ReflTransGen Step h h') : h'.OneAtATime := by
  induction hs
  case refl         => exact a
  case tail hs h hi => exact hi.step (o.steps hs) h

theorem Step.closed (hs : Step h h') (hc : h.stage.closed = true) :
    h'.stage.closed = true ∧ h'.accepted = h.accepted := by
  cases hs
  case accepts job stage ran =>
    have ⟨ho, _⟩ := execute_eq_ok_iff.mp ran
    cases hc.symm.trans ho
  case takes call stage took =>
    obtain ⟨-, queue, -, rfl⟩ := take_eq_some_iff.mp took
    exact ⟨hc, rfl⟩
  case accounts call i running finished =>
    rw [finish_eq running]
    exact ⟨hc, rfl⟩
  case leaves => exact ⟨(closed_leave _).trans hc, rfl⟩
  case closes => exact ⟨rfl, rfl⟩
  all_goals exact ⟨hc, rfl⟩

-- After the stage was closed, nothing is accepted.
theorem accepted_eq_of_closed (hc : h.stage.closed = true) (hs : Relation.ReflTransGen Step h h') :
    h'.accepted = h.accepted := by
  suffices h'.stage.closed = true ∧ h'.accepted = h.accepted from this.right
  induction hs
  case refl => exact ⟨hc, rfl⟩
  case tail _ hs hi =>
    have ⟨hc, ha⟩ := hs.closed hi.left
    exact ⟨hc, ha.trans hi.right⟩

theorem Orderly.not_taken_of_refused (o : h.Orderly workers) (hr : call ∈ h.refused) :
    call ∉ h.taken := by
  intro ht
  have ha : call ∈ h.accepted := o.queued ▸ List.mem_append_left _ ht
  exact (List.nodup_append.mp o.distinct).right.right _ ha _ hr rfl

-- The last worker leaves when everything that was accepted has been taken and is accounted for.
theorem Orderly.complete (o : h.Orderly workers) (hw : 0 < workers) (hl : h.stage.workers = 0) :
    h.taken = h.accepted ∧ h.ended.Perm h.accepted := by
  have ⟨_, hq⟩ := o.left (hl ▸ hw)
  have hr : h.stage.running = [] :=
    List.length_eq_zero_iff.mp (Nat.le_zero.mp (hl ▸ o.crew.left))
  have ht : h.taken = h.accepted := by rw [← o.queued, hq, List.append_nil]
  have hp : h.taken.Perm h.accounted := by simpa [hr] using o.taken
  refine ⟨ht, ht ▸ (List.perm_ext_iff_of_nodup o.ended.left o.nodup_taken).mpr fun c => ?_⟩
  exact ⟨fun hc => o.ended.right hc, fun hc => o.accounted (hp.mem_iff.mp hc)⟩

-- What the queue and the workers of a stage warrant.
structure Disciplined (workers : Nat) (h : History Job) : Prop where
  -- Each accepted job is taken once, in the order of acceptance, and comes to its end once.
  taken    : h.taken.Nodup ∧ h.taken <+: h.accepted
  ended    : h.ended.Nodup ∧ h.ended ⊆ h.taken
  refused  : ∀ call ∈ h.refused, call ∉ h.taken
  inFlight : h.stage.inFlight = h.stage.queue.length + h.stage.running.length
  running  : h.taken.Perm (h.accounted ++ h.stage.running)
  closed   : h.stage.closed = true → ∀ h', Relation.ReflTransGen Step h h' →
    h'.accepted = h.accepted
  -- All workers have left.
  left     : h.stage.workers = 0 → h.taken = h.accepted ∧ h.ended.Perm h.accepted
  alone    : workers = 1 → h.OneAtATime

theorem steps_disciplined (hs : Relation.ReflTransGen Step (start Job name workers) h) :
    h.Disciplined (max workers 1) := by
  have o := orderly_start.steps hs
  exact {
    taken    := ⟨o.nodup_taken, h.stage.queue, o.queued⟩
    ended    := o.ended
    refused  := fun _ => o.not_taken_of_refused
    inFlight := o.inFlight
    running  := o.taken
    closed   := fun hc _ => accepted_eq_of_closed hc
    left     := o.complete (Nat.le_max_right ..)
    alone    := fun hw => (OneAtATime.between rfl).steps (hw ▸ orderly_start) hs }

-- Two workers, of which one meets a panic; a call that comes after the closing; everybody leaves.
theorem steps_disciplined_of_panic :
    ∃ h : History String, Relation.ReflTransGen Step (start String "mutation" 2) h ∧
      h.Disciplined 2 ∧ h.refused = [(2, "late")] ∧ h.panicked = [(0, "first")] ∧
      h.stage.workers = 0 ∧ h.ended = [(1, "second"), (0, "first")] := by
  let h₀ := start String "mutation" 2
  have hs : Relation.ReflTransGen Step h₀ _ := .refl
  have hs := hs.tail (@Step.accepts _ _ "first" _ rfl)
  have hs := hs.tail (@Step.accepts _ _ "second" _ rfl)
  have hs := hs.tail (.takes rfl)
  have hs := hs.tail (.takes rfl)
  have hs := hs.tail (@Step.ends _ _ (1, "second") false (by decide) (by decide))
  have hs := hs.tail (.closes _)
  have hs := hs.tail (@Step.refuses _ _ "late" _ rfl)
  have hs := hs.tail (@Step.ends _ _ (0, "first") true (by decide) (by decide))
  have hs := hs.tail (.accounts (i := 0) rfl (by decide))
  have hs := hs.tail (.leaves _)
  have hs := hs.tail (.accounts (i := 0) rfl (by decide))
  have hs := hs.tail (.leaves _)
  exact ⟨_, hs, steps_disciplined hs, rfl, rfl, rfl, rfl⟩

end History
end ClusterMetadata.Stage
