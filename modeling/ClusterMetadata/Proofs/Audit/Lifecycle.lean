import ClusterMetadata.Proofs.Audit.Tag

/-!
The life of the records of dropped columns on one storage. An operation takes the step that follows
the state it is given: a record that is loaded gives its own, an update the new one. So what is
stored moves forward as long as updates are given the state that is stored (`Run.advances_iff`). An
update that is given another one takes `permanent_drop` back (`permanentDrop_reverts_of_new_state`).
-/

namespace ClusterMetadata.Tag

variable {s s' s₀ : Storage} {t : Tag} {value : Bytes} {now : Int64} {m : Mutation}
  {o o' : Option Bytes}

theorem Next.injective (h : Next o value) (h' : Next o' value) : o = o' := by
  generalize he : value = value' at h'
  cases h <;> cases h'
  case first.first => rfl
  case first.last  => exact absurd he dropped_ne_permanentDrop
  case last.first  => exact absurd he.symm dropped_ne_permanentDrop
  case last.last   => rfl

theorem nextValue_eq_permanentlyDropped {target : String}
    (h : t.nextValue = .error (.permanentlyDropped target)) : t.value = some permanentDrop := by
  simp only [nextValue] at h
  split at h
  case h_1 => cases h
  case h_3 => cases h
  case h_2 v _ hv =>
    split at h
    case isTrue => cases h
    case isFalse =>
      split at h
      case isTrue hp => exact hp ▸ hv
      case isFalse   => cases h

-- A step that is later than all before it is what is stored then, and no other record changes.
theorem recordCell?_addition {target target' : String}
    (h : s.apply (addition .columnDrop target value now) = .ok s') (hp : Precede s now) :
    recordCell? s' target' =
      if target = target' then some ⟨value, now⟩ else recordCell? s target' := by
  rw [recordCell?, (Storage.writes_apply h).partition]
  split
  case isTrue ht =>
    obtain ⟨history, hr, hb⟩ := hp
    subst ht
    refine hr.getElem?_foldl_of_latest hb isRecording_addition_on.isDeletion_eq_false ?_ ?_
    · exact write_mem_addition_on_iff.mpr ⟨rfl, rfl, rfl⟩
    · exact fun c' hc' => (write_mem_addition_on_iff.mp hc').right.right.le
  case isFalse ht =>
    refine Partition.getElem?_foldl_of_not_written isRecording_addition_on.isDeletion_eq_false ?_
    exact fun c hc => ht (write_mem_addition_on_iff.mp hc).right.left

-- A record is loaded, and takes its own next step or that of a new state.
inductive Operation where
  | adds (parts : List String)
  | updates (parts : List String) (new : Tag)

namespace Operation

variable {op : Operation} {e : TagError}

def parts : Operation → List String
  | adds parts      => parts
  | updates parts _ => parts

def target (op : Operation) : String := joinTarget op.parts

-- The state whose next step is taken.
def given (s : Storage) : Operation → Tag
  | adds parts    => load s .columnDrop parts
  | updates _ new => new

def make (s : Storage) (now : Int64) : Operation → Except TagError Mutation
  | adds parts        => do return (← (load s .columnDrop parts).add now).1
  | updates parts new => do return (← (load s .columnDrop parts).update new now).1

-- The state belongs to the record.
def Fits : Operation → Prop
  | adds _            => True
  | updates parts new => new.kind = .columnDrop ∧ new.target = joinTarget parts

-- The state is the one that is stored.
structure IsCurrent (op : Operation) (s : Storage) : Prop where
  fits  : op.Fits
  value : (op.given s).value = (load s .columnDrop op.parts).value

theorem isCurrent_adds (parts : List String) : (adds parts).IsCurrent s := ⟨trivial, rfl⟩

theorem kind_given (h : op.Fits) : (op.given s).kind = .columnDrop := by
  cases op
  case adds    => rfl
  case updates => exact h.left

theorem target_given (h : op.Fits) : (op.given s).target = op.target := by
  cases op
  case adds    => rfl
  case updates => exact h.right

theorem make_of_fits (h : op.Fits) : op.make s now = do
    return (← (op.given s).add now).1 := by
  cases op
  case adds parts => rfl
  case updates parts new =>
    have hc : (load s .columnDrop parts).checkSame new = .ok () :=
      if_pos ⟨h.left.symm, h.right.symm⟩
    rw [make, update, hc]
    rfl

theorem make_of_not_fits (s : Storage) (now : Int64) (h : ¬op.Fits) :
    ∃ expected found, op.make s now = .error (.mismatch expected found) := by
  cases op
  case adds => exact absurd trivial h
  case updates parts new =>
    have hc : (load s .columnDrop parts).checkSame new =
        .error (.mismatch (load s .columnDrop parts).label new.label) :=
      if_neg fun hs => h ⟨hs.left.symm, hs.right.symm⟩
    rw [make, update, hc]
    exact ⟨_, _, rfl⟩

theorem make_eq_ok (h : op.make s now = .ok m) : op.Fits ∧
    ∃ value, Next (op.given s).value value ∧ m = addition .columnDrop op.target value now := by
  have fits : op.Fits := by
    by_contra hf
    obtain ⟨_, _, he⟩ := make_of_not_fits s now hf
    cases he.symm.trans h
  rw [make_of_fits fits] at h
  obtain ⟨⟨_, _⟩, ha, h⟩ := bind_eq_ok_iff.mp h
  cases h
  obtain ⟨value, hv, rfl⟩ := add_eq_ok ha
  rw [kind_given fits, target_given fits]
  exact ⟨fits, value, (nextValue_eq_ok_iff (kind_given fits)).mp hv, rfl⟩

theorem exists_make_eq_ok_iff :
    (∃ m, op.make s now = .ok m) ↔ op.Fits ∧ ∃ value, Next (op.given s).value value := by
  constructor
  case mp =>
    rintro ⟨m, hm⟩
    obtain ⟨fits, value, next, -⟩ := make_eq_ok hm
    exact ⟨fits, value, next⟩
  case mpr =>
    rintro ⟨fits, value, next⟩
    obtain ⟨m, t', ha⟩ := exists_add_eq_ok (kind_given fits) next now
    rw [make_of_fits fits, ha]
    exact ⟨m, rfl⟩

theorem make_eq_permanentlyDropped_iff :
    op.make s now = .error (.permanentlyDropped op.target) ↔
      op.Fits ∧ (op.given s).value = some permanentDrop := by
  constructor
  case mp =>
    intro h
    have fits : op.Fits := by
      by_contra hf
      obtain ⟨_, _, he⟩ := make_of_not_fits s now hf
      cases he.symm.trans h
    rw [make_of_fits fits, bind_eq_error_iff] at h
    rcases h with h | ⟨_, _, ⟨⟩⟩
    rw [add, bind_eq_error_iff] at h
    rcases h with h | ⟨_, _, ⟨⟩⟩
    exact ⟨fits, nextValue_eq_permanentlyDropped h⟩
  case mpr =>
    rintro ⟨fits, hv⟩
    rw [make_of_fits fits, add, nextValue_of_permanentDrop (kind_given fits) hv, target_given fits]
    rfl

end Operation

-- An operation that is made at some instant, between two states of the storage.
structure Entry where
  before : Storage
  instant : Int64
  operation : Operation
  result : Except TagError Unit
  after : Storage

-- What an operation makes is applied. One that is refused changes nothing.
inductive Step : Entry → Prop
  | accepted {s s' : Storage} {now : Int64} {op : Operation} {m : Mutation}
      (made : op.make s now = .ok m) (applied : s.apply m = .ok s') : Step ⟨s, now, op, .ok (), s'⟩
  | refused {s : Storage} {now : Int64} {op : Operation} {e : TagError}
      (failed : op.make s now = .error e) : Step ⟨s, now, op, .error e, s⟩

-- Operations that are made one after another, with their instants.
inductive Run (s₀ : Storage) : List Entry → Storage → Prop
  | start : Run s₀ [] s₀
  | step {log : List Entry} {e : Entry} (h : Run s₀ log e.before) (step : Step e)
      (later : ∀ old ∈ log, old.instant < e.instant) : Run s₀ (log ++ [e]) e.after

variable {log : List Entry} {e : Entry} {parts : List String}

theorem exists_step (hf : s.failing = false) (now : Int64) (op : Operation) :
    ∃ result s', Step ⟨s, now, op, result, s'⟩ ∧
      (result = .ok () ↔ op.Fits ∧ ∃ value, Next (op.given s).value value) := by
  have made : (∃ m, op.make s now = .ok m) ↔ _ := Operation.exists_make_eq_ok_iff
  rw [← made]
  cases hm : op.make s now
  case error e => exact ⟨_, _, .refused hm, by simp⟩
  case ok m =>
    have ⟨s', ha⟩ := Storage.exists_apply_eq_ok hf m
    exact ⟨_, _, .accepted hm ha, by simp⟩

namespace Step

-- What is written follows the state that was given, and is what is read then.
structure Advances (e : Entry) (value : Bytes) : Prop where
  follows : Next (e.operation.given e.before).value value
  read    : ∀ parts, (load e.after .columnDrop parts).value =
    if e.operation.target = joinTarget parts then some value
    else (load e.before .columnDrop parts).value

theorem tidy (h : Step e) (ht : IsTidy e.before) : IsTidy e.after := by
  cases h
  case refused => exact ht
  case accepted made applied =>
    obtain ⟨_, _, _, rfl⟩ := Operation.make_eq_ok made
    exact ht.writes (Storage.writes_apply applied) isRecording_addition_on

theorem precede (h : Step e) (hp : Precede e.before now) (hlt : e.instant < now) :
    Precede e.after now := by
  cases h
  case refused => exact hp
  case accepted made applied =>
    obtain ⟨_, _, _, rfl⟩ := Operation.make_eq_ok made
    refine hp.writes (Storage.writes_apply applied) (Std.le_refl now) fun mod hm => ?_
    exact timestamp_eq_of_mem_addition_on hm ▸ hlt

theorem exists_advances (h : Step e) (ht : IsTidy e.before) (hp : Precede e.before e.instant)
    (hr : e.result = .ok ()) : e.operation.Fits ∧ ∃ value, Advances e value := by
  have tidy := h.tidy ht
  cases h
  case refused => cases hr
  case accepted made applied =>
    obtain ⟨fits, value, hv, rfl⟩ := Operation.make_eq_ok made
    refine ⟨fits, value, hv, fun parts => ?_⟩
    rw [load_value tidy, load_value ht, recordCell?_addition applied hp]
    split <;> rfl

-- The step leads on from what is stored exactly if the state that was given is stored.
theorem Advances.next_iff (h : Advances e value) (fits : e.operation.Fits) :
    Next (load e.before .columnDrop e.operation.parts).value value ↔
      e.operation.IsCurrent e.before :=
  ⟨fun hn => ⟨fits, h.follows.injective hn⟩, fun hc => hc.value ▸ h.follows⟩

theorem failing (h : Step e) : e.after.failing = e.before.failing := by
  cases h
  case accepted applied => exact (Storage.writes_apply applied).failing
  case refused          => rfl

theorem after_eq_before (h : Step e) (hr : e.result ≠ .ok ()) : e.after = e.before := by
  cases h
  case accepted => exact absurd rfl hr
  case refused  => rfl

theorem make_eq_of_error (h : Step e) {error : TagError} :
    e.result = .error error ↔ e.operation.make e.before e.instant = .error error := by
  cases h
  case accepted made _ => simp [made]
  case refused failed  => simp [failed]

theorem permanentlyDropped_iff (h : Step e)
    (hv : (load e.before .columnDrop e.operation.parts).value = some permanentDrop) :
    e.result = .error (.permanentlyDropped e.operation.target) ↔
      e.operation.IsCurrent e.before := by
  rw [h.make_eq_of_error, Operation.make_eq_permanentlyDropped_iff]
  exact ⟨fun ⟨fits, hg⟩ => ⟨fits, hg.trans hv.symm⟩, fun hc => ⟨hc.fits, hc.value.trans hv⟩⟩

end Step

namespace Run

theorem tidy (h : Run s₀ log s) (ht : IsTidy s₀) : IsTidy s := by
  induction h
  case start           => exact ht
  case step step _ hi  => exact step.tidy hi

theorem precede (h : Run s₀ log s) (hp : Precede s₀ now) (hl : ∀ e ∈ log, e.instant < now) :
    Precede s now := by
  induction h
  case start => exact hp
  case step step _ hi =>
    rw [List.forall_mem_append, List.forall_mem_singleton] at hl
    exact step.precede (hi hl.left) hl.right

-- Each operation of a run has been made at the end of a shorter run.
theorem exists_of_mem (h : Run s₀ log s) (he : e ∈ log) :
    Step e ∧ ∃ earlier, Run s₀ earlier e.before ∧ ∀ old ∈ earlier, old.instant < e.instant := by
  induction h
  case start => cases he
  case step log e' h step later hi =>
    rcases List.mem_append.mp he with he | he
    · exact hi he
    · obtain rfl := List.mem_singleton.mp he
      exact ⟨step, log, h, later⟩

end Run

-- How many operations on a record have been accepted.
def accepted (log : List Entry) (target : String) : Nat :=
  log.countP fun e => e.result.isOk && e.operation.target = target

theorem accepted_append (target : String) : accepted (log ++ [e]) target =
    accepted log target + if e.result = .ok () ∧ e.operation.target = target then 1 else 0 := by
  have ho : e.result.isOk = true ↔ e.result = .ok () :=
    isOk_iff.trans ⟨fun ⟨_, h⟩ => h, fun h => ⟨(), h⟩⟩
  simp only [accepted, List.countP_append, List.countP_singleton, Bool.and_eq_true,
    decide_eq_true_eq, ho]

namespace Run

-- While all states that are given are the stored ones, each operation that is accepted is one step.
theorem counts_steps {drops : Nat} (h : Run s₀ log s) (ht : IsTidy s₀)
    (hp : ∀ e ∈ log, Precede s₀ e.instant)
    (h₀ : (load s₀ .columnDrop parts).value = afterDrops drops) (hd : drops ≤ 2)
    (hc : ∀ e ∈ log, e.operation.target = joinTarget parts → e.operation.IsCurrent e.before) :
    drops + accepted log (joinTarget parts) ≤ 2 ∧
      (load s .columnDrop parts).value = afterDrops (drops + accepted log (joinTarget parts)) := by
  induction h
  case start => exact ⟨hd, h₀⟩
  case step log e h step later hi =>
    rw [List.forall_mem_append, List.forall_mem_singleton] at hp hc
    obtain ⟨few, same⟩ := hi hp.left hc.left
    have tidy := h.tidy ht
    rw [accepted_append]
    by_cases hr : e.result = .ok ()
    case neg =>
      rw [if_neg fun ha => hr ha.left, Nat.add_zero, step.after_eq_before hr]
      exact ⟨few, same⟩
    case pos =>
      obtain ⟨fits, value, advances⟩ := step.exists_advances tidy (h.precede hp.right later) hr
      rw [advances.read]
      by_cases htarget : e.operation.target = joinTarget parts
      case neg =>
        rw [if_neg fun ha => htarget ha.right, if_neg htarget, Nat.add_zero]
        exact ⟨few, same⟩
      case pos =>
        have next := (advances.next_iff fits).mpr (hc.right htarget)
        rw [load_value tidy, ← Operation.target, htarget, ← load_value tidy, same] at next
        obtain ⟨hlt, hafter⟩ := lt_two_of_next next
        rw [if_pos ⟨hr, htarget⟩, if_pos htarget, ← Nat.add_assoc, hafter]
        exact ⟨hlt, rfl⟩

-- An operation that is accepted leaves behind what follows the state that was given, and this is a
-- step forward exactly if that state is the stored one. One that is refused changes nothing, and
-- with `permanent_drop` stored it is refused as such exactly if that is the state given.
theorem advances_iff (h : Run s₀ log s) (ht : IsTidy s₀)
    (hp : ∀ e ∈ log, Precede s₀ e.instant) :
    (∀ e ∈ log,
      let stored parts := (load e.before .columnDrop parts).value
      let op := e.operation
      (e.result = .ok () → ∃ value, Next (op.given e.before).value value ∧
        (∀ parts, (load e.after .columnDrop parts).value =
          if op.target = joinTarget parts then some value else stored parts) ∧
        (Next (stored op.parts) value ↔ op.IsCurrent e.before)) ∧
      (e.result ≠ .ok () → e.after = e.before) ∧
      (stored op.parts = some permanentDrop →
        (e.result = .error (.permanentlyDropped op.target) ↔ op.IsCurrent e.before))) ∧
    (∀ parts drops, (load s₀ .columnDrop parts).value = afterDrops drops → drops ≤ 2 →
      (∀ e ∈ log, e.operation.target = joinTarget parts → e.operation.IsCurrent e.before) →
      drops + accepted log (joinTarget parts) ≤ 2 ∧
      (load s .columnDrop parts).value = afterDrops (drops + accepted log (joinTarget parts))) ∧
    (s.failing = false → ∀ now op, ∃ result s', Step ⟨s, now, op, result, s'⟩ ∧
      (result = .ok () ↔ op.Fits ∧ ∃ value, Next (op.given s).value value)) := by
  refine ⟨fun e he => ?_, fun _ _ h₀ hd hc => h.counts_steps ht hp h₀ hd hc, exists_step⟩
  obtain ⟨step, earlier, hrun, later⟩ := h.exists_of_mem he
  refine ⟨fun hr => ?_, step.after_eq_before, step.permanentlyDropped_iff⟩
  obtain ⟨fits, value, advances⟩ :=
    step.exists_advances (hrun.tidy ht) (hrun.precede (hp e he) later) hr
  exact ⟨value, advances.follows, advances.read, advances.next_iff fits⟩

-- A state that has a next step is accepted.
theorem exists_accepted (h : Run ∅ log s) (hf : s.failing = false) (now : Int64) (op : Operation)
    (later : ∀ old ∈ log, old.instant < now) (fits : op.Fits) (given : (op.given s).value = o)
    (next : Next o value) :
    ∃ s', Run ∅ (log ++ [⟨s, now, op, .ok (), s'⟩]) s' ∧ s'.failing = false ∧
      (load s' .columnDrop op.parts).value = some value := by
  subst given
  obtain ⟨result, s', step, accepts⟩ := exists_step hf now op
  obtain rfl := accepts.mpr ⟨fits, value, next⟩
  obtain ⟨-, value', advances⟩ :=
    step.exists_advances (h.tidy isTidy_empty) (h.precede (precede_empty now) later) rfl
  refine ⟨s', h.step step later, step.failing.trans hf, ?_⟩
  rw [next.unique advances.follows]
  exact (advances.read _).trans (if_pos rfl)

-- A column is dropped twice, the second time by an update with the stored state, and then again.
theorem advances_iff_of_redrop :
    let parts := ["app", "users", "email"]
    let target := joinTarget parts
    ∃ s₁ s₂,
      let log : List Entry :=
        [⟨∅, 1000, .adds parts, .ok (), s₁⟩,
         ⟨s₁, 2000, .updates parts (load s₁ .columnDrop parts), .ok (), s₂⟩,
         ⟨s₂, 3000, .adds parts, .error (.permanentlyDropped target), s₂⟩]
      Run ∅ log s₂ ∧ IsTidy ∅ ∧ (∀ e ∈ log, Precede ∅ e.instant) ∧
      (∀ e ∈ log, e.operation.IsCurrent e.before) ∧ accepted log target = 2 ∧
      (load s₂ .columnDrop parts).value = some permanentDrop := by
  intro parts target
  clear_value parts
  obtain ⟨s₁, run, f₁, v₁⟩ := Run.start.exists_accepted rfl 1000 (.adds parts) (by simp) trivial
    (load_value_empty parts) .first
  obtain ⟨s₂, run, -, v₂⟩ := run.exists_accepted f₁ 2000
    (.updates parts (load s₁ .columnDrop parts)) (by simp) ⟨rfl, rfl⟩ v₁ .last
  have refused : Step ⟨s₂, 3000, .adds parts, .error (.permanentlyDropped target), s₂⟩ :=
    .refused (Operation.make_eq_permanentlyDropped_iff.mpr ⟨trivial, v₂⟩)
  refine ⟨s₁, s₂, ?_⟩
  intro log
  have run : Run ∅ log s₂ := run.step refused (by simp)
  have before : ∀ e ∈ log, Precede ∅ e.instant := fun e _ => precede_empty e.instant
  have current : ∀ e ∈ log, e.operation.IsCurrent e.before := by
    have again : (Operation.updates parts (load s₁ .columnDrop parts)).IsCurrent s₁ :=
      ⟨⟨rfl, rfl⟩, rfl⟩
    simp only [log, List.forall_mem_cons]
    exact ⟨Operation.isCurrent_adds parts, again, Operation.isCurrent_adds parts, by simp⟩
  have count : accepted log target = 2 := by
    simp [accepted, log, target, Operation.target, Operation.parts, Except.isOk, Except.toBool]
  obtain ⟨-, steps, -⟩ := advances_iff run isTidy_empty before
  obtain ⟨-, read⟩ := steps parts 0 (load_value_empty parts) (by decide) fun e he _ => current e he
  exact ⟨run, isTidy_empty, before, current, count, by rw [read, count]; rfl⟩

-- A column has been dropped twice. The state that the update is given is a new one.
theorem permanentDrop_reverts_of_new_state :
    let parts := ["app", "users", "email"]
    ∃ s₁ s₂ s₃, Run ∅
        [⟨∅, 1000, .adds parts, .ok (), s₁⟩, ⟨s₁, 2000, .adds parts, .ok (), s₂⟩,
         ⟨s₂, 3000, .updates parts (new .columnDrop parts), .ok (), s₃⟩] s₃ ∧
      (load s₂ .columnDrop parts).value = some permanentDrop ∧
      (load s₃ .columnDrop parts).value = some dropped := by
  intro parts
  clear_value parts
  obtain ⟨s₁, r₁, f₁, v₁⟩ := Run.start.exists_accepted rfl 1000 (.adds parts) (by simp) trivial
    (load_value_empty parts) .first
  obtain ⟨s₂, r₂, f₂, v₂⟩ :=
    r₁.exists_accepted f₁ 2000 (.adds parts) (by simp) trivial v₁ .last
  obtain ⟨s₃, r₃, -, v₃⟩ := r₂.exists_accepted f₂ 3000
    (.updates parts (new .columnDrop parts)) (by simp) ⟨rfl, rfl⟩ rfl .first
  exact ⟨s₁, s₂, s₃, r₃, v₂, v₃⟩

end Run
end ClusterMetadata.Tag
