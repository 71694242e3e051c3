import Mathlib.Data.List.Pairwise
import TemporalGraph.Concurrent
import TemporalGraph.Proofs.Outcome
/-!
Writes that wait for one another. Main statement: whatever the schedule, one call at a time runs a
statement for a resource, the calls for a resource wait at one mutex, and the table has an entry for
a resource exactly as long as some call has a handle to its mutex.
-/

namespace TemporalGraph.Concurrent

namespace Stage

def lock? : Stage → Option Nat
  | holding m | answered m => some m
  | _ => none

theorem isSome_lock? (stage : Stage) : stage.lock?.isSome = stage.isRunning := by
  cases stage <;> rfl

theorem handle?_of_lock? {stage : Stage} {m : Nat} (h : stage.lock? = some m) :
    stage.handle? = some m := by
  cases stage with
  | holding n => exact h
  | answered n => exact h
  | _ => cases h

end Stage

namespace State

variable {σ : Type} {session : Session σ} {s s' : State σ} {i j m : Nat} {before after : Stage}

def stage? (s : State σ) (i : Nat) : Option Stage := s.tasks[i]?.map Task.stage

def resource? (s : State σ) (i : Nat) : Option Resource := s.tasks[i]?.bind Task.resource

def handle? (s : State σ) (i : Nat) : Option Nat := (s.stage? i).bind Stage.handle?

def lock? (s : State σ) (i : Nat) : Option Nat := (s.stage? i).bind Stage.lock?

inductive Step (session : Session σ) (s : State σ) (i : Nat) : State σ → Prop where
  | refuse {resource : Option Resource} {answer : Option Answer} {e : Error}
      (hi : s.tasks[i]? = some ⟨.error e, resource, .ready, answer⟩) :
      Step session s i (s.setTask i ⟨.error e, resource, .done, some (.error e)⟩)
  | submit {statement : Statement} {answer : Option Answer}
      (hi : s.tasks[i]? = some ⟨.ok statement, none, .ready, answer⟩) :
      Step session s i (s.submit session i ⟨.ok statement, none, .ready, answer⟩ statement .done)
  | enter {statement : Statement} {r : Resource} {answer : Option Answer}
      (hi : s.tasks[i]? = some ⟨.ok statement, some r, .ready, answer⟩) :
      Step session s i (s.enter i ⟨.ok statement, some r, .ready, answer⟩ r)
  | acquire {prepared : Except Error Statement} {resource : Option Resource}
      {answer : Option Answer} {m : Nat}
      (hi : s.tasks[i]? = some ⟨prepared, resource, .waiting m, answer⟩) (hm : m ∉ s.locked) :
      Step session s i
        { s.setTask i ⟨prepared, resource, .holding m, answer⟩ with locked := m :: s.locked }
  | submitHolding {statement : Statement} {resource : Option Resource} {answer : Option Answer}
      {m : Nat} (hi : s.tasks[i]? = some ⟨.ok statement, resource, .holding m, answer⟩) :
      Step session s i
        (s.submit session i ⟨.ok statement, resource, .holding m, answer⟩ statement (.answered m))
  | skip {resource : Option Resource} {answer : Option Answer} {e : Error} {m : Nat}
      (hi : s.tasks[i]? = some ⟨.error e, resource, .holding m, answer⟩) :
      Step session s i (s.setTask i ⟨.error e, resource, .answered m, answer⟩)
  | release {prepared : Except Error Statement} {resource : Option Resource}
      {answer : Option Answer} {m : Nat}
      (hi : s.tasks[i]? = some ⟨prepared, resource, .answered m, answer⟩) :
      Step session s i
        { s.setTask i ⟨prepared, resource, .released m, answer⟩ with
          locked := s.locked.filter (· != m) }
  | leave {prepared : Except Error Statement} {resource : Option Resource}
      {answer : Option Answer} {m : Nat}
      (hi : s.tasks[i]? = some ⟨prepared, resource, .released m, answer⟩) :
      Step session s i (s.leave i ⟨prepared, resource, .released m, answer⟩)

theorem step_cases (h : s.step session i = some s') : Step session s i s' := by
  unfold step at h
  cases hi : s.tasks[i]? with
  | none => simp [hi] at h
  | some task =>
    simp only [hi] at h
    obtain ⟨prepared, resource, stage, answer⟩ := task
    cases stage with
    | ready =>
      cases prepared with
      | error e =>
        obtain rfl := Option.some.inj h
        exact .refuse hi
      | ok statement =>
        cases resource with
        | none =>
          obtain rfl := Option.some.inj h
          exact .submit hi
        | some r =>
          obtain rfl := Option.some.inj h
          exact .enter hi
    | waiting m =>
      by_cases hm : m ∈ s.locked
      · simp [hm] at h
      · have hfree : ¬s.locked.contains m = true := by simpa using hm
        simp only [if_neg hfree] at h
        obtain rfl := Option.some.inj h
        exact .acquire hi hm
    | holding m =>
      cases prepared with
      | error e =>
        obtain rfl := Option.some.inj h
        exact .skip hi
      | ok statement =>
        obtain rfl := Option.some.inj h
        exact .submitHolding hi
    | answered m =>
      obtain rfl := Option.some.inj h
      exact .release hi
    | released m =>
      obtain rfl := Option.some.inj h
      exact .leave hi
    | done => cases h

def shared (s : State σ) : List (Resource × Nat) × List Nat × Nat := (s.table, s.locked, s.fresh)

inductive Change (s s' : State σ) (resource : Option Resource) : Stage → Stage → Prop where
  | finish (h : s'.shared = s.shared) : Change s s' resource .ready .done
  | join {r : Resource} {m : Nat} (hr : resource = some r) (hm : s.mutex? r = some m)
      (h : s'.shared = s.shared) : Change s s' resource .ready (.waiting m)
  | create {r : Resource} (hr : resource = some r) (hm : s.mutex? r = none)
      (h : s'.shared = (s.table ++ [(r, s.fresh)], s.locked, s.fresh + 1)) :
      Change s s' resource .ready (.waiting s.fresh)
  | acquire {m : Nat} (hm : m ∉ s.locked) (h : s'.shared = (s.table, m :: s.locked, s.fresh)) :
      Change s s' resource (.waiting m) (.holding m)
  | answer {m : Nat} (h : s'.shared = s.shared) : Change s s' resource (.holding m) (.answered m)
  | release {m : Nat} (h : s'.shared = (s.table, s.locked.filter (· != m), s.fresh)) :
      Change s s' resource (.answered m) (.released m)
  | leave {m : Nat}
      (hn : ∀ r n, resource = some r → s.mutex? r = some n → s'.handles n ≠ 0)
      (h : s'.shared = s.shared) : Change s s' resource (.released m) .done
  | clear {m n : Nat} {r : Resource} (hr : resource = some r) (hm : s.mutex? r = some n)
      (hn : s'.handles n = 0)
      (h : s'.shared = (s.table.filter fun e => e.1 != r, s.locked, s.fresh)) :
      Change s s' resource (.released m) .done

structure Turn (s s' : State σ) (i : Nat) (before after : Stage) : Prop where
  resource : ∀ j, s'.resource? j = s.resource? j
  stage : s.stage? i = some before
  stages : ∀ j, s'.stage? j = if j = i then some after else s.stage? j
  change : Change s s' (s.resource? i) before after

theorem turn_of_set {task : Task} {stage : Stage} {answer : Option Answer}
    (hi : s.tasks[i]? = some task)
    (ht : s'.tasks = s.tasks.set i { task with stage, answer })
    (hc : Change s s' task.resource task.stage stage) : Turn s s' i task.stage stage := by
  have hlt : i < s.tasks.length := (List.getElem?_eq_some_iff.1 hi).1
  have hset (j : Nat) : s'.tasks[j]? =
      if j = i then some { task with stage, answer } else s.tasks[j]? := by
    rw [ht, List.getElem?_set]
    by_cases h : i = j
    · subst h
      simp [hlt]
    · simp [h, Ne.symm h]
  constructor
  · intro j
    rw [resource?, resource?, hset]
    by_cases h : j = i
    · subst h
      simp [hi]
    · simp [h]
  · simp [stage?, hi]
  · intro j
    rw [stage?, hset, stage?]
    by_cases h : j = i
    · simp [h]
    · simp [h]
  · simpa [resource?, hi] using hc

theorem turn_of_leave {task : Task} {m : Nat} (hi : s.tasks[i]? = some task)
    (hs : task.stage = .released m) : Turn s (s.leave i task) i (.released m) .done := by
  obtain ⟨prepared, resource, stage, answer⟩ := task
  obtain rfl : stage = .released m := hs
  cases resource with
  | none => exact turn_of_set hi rfl (.leave (fun r n hr => by cases hr) rfl)
  | some r =>
    let after := s.setTask i ⟨prepared, some r, .done, answer⟩
    let last := (s.mutex? r).any fun n => decide (after.handles n = 0)
    have hleave : s.leave i ⟨prepared, some r, .released m, answer⟩ =
        if last then { after with table := s.table.filter fun e => e.1 != r } else after := rfl
    rw [hleave]
    by_cases hl : last = true
    · obtain ⟨n, hm, hn⟩ := (Option.any_eq_true _ _).1 hl
      rw [if_pos hl]
      exact turn_of_set hi rfl (.clear rfl hm (of_decide_eq_true hn) rfl)
    · rw [if_neg hl]
      refine turn_of_set hi rfl (.leave (fun r' n hr hm hn => hl ?_) rfl)
      obtain rfl := Option.some.inj hr
      simp [last, hm, hn]

theorem turn_of_step (h : s.step session i = some s') :
    ∃ before after, Turn s s' i before after := by
  cases step_cases h with
  | refuse hi => exact ⟨.ready, .done, turn_of_set hi rfl (.finish rfl)⟩
  | submit hi => exact ⟨.ready, .done, turn_of_set hi rfl (.finish rfl)⟩
  | @enter statement r answer hi =>
    refine ⟨.ready, ?_⟩
    unfold enter
    cases hm : s.mutex? r with
    | none => exact ⟨_, turn_of_set hi rfl (.create rfl hm rfl)⟩
    | some m => exact ⟨_, turn_of_set hi rfl (.join rfl hm rfl)⟩
  | acquire hi hm => exact ⟨_, _, turn_of_set hi rfl (.acquire hm rfl)⟩
  | submitHolding hi => exact ⟨_, _, turn_of_set hi rfl (.answer rfl)⟩
  | skip hi => exact ⟨_, _, turn_of_set hi rfl (.answer rfl)⟩
  | release hi => exact ⟨_, _, turn_of_set hi rfl (.release rfl)⟩
  | leave hi => exact ⟨_, _, turn_of_leave hi rfl⟩

namespace Turn

theorem handle? (h : Turn s s' i before after) (j : Nat) :
    s'.handle? j = if j = i then after.handle? else s.handle? j := by
  rw [State.handle?, h.stages, State.handle?]
  by_cases hj : j = i
  · simp [hj]
  · simp [hj]

theorem lock? (h : Turn s s' i before after) (j : Nat) :
    s'.lock? j = if j = i then after.lock? else s.lock? j := by
  rw [State.lock?, h.stages, State.lock?]
  by_cases hj : j = i
  · simp [hj]
  · simp [hj]

theorem handle?_before (h : Turn s s' i before after) : s.handle? i = before.handle? := by
  rw [State.handle?, h.stage]
  rfl

theorem lock?_before (h : Turn s s' i before after) : s.lock? i = before.lock? := by
  rw [State.lock?, h.stage]
  rfl

theorem handle?_eq (h : Turn s s' i before after) (hb : after.handle? = before.handle?) :
    s'.handle? = s.handle? := by
  funext j
  rw [h.handle?]
  split
  · next hj => rw [hj, h.handle?_before, hb]
  · rfl

theorem lock?_eq (h : Turn s s' i before after) (hb : after.lock? = before.lock?) :
    s'.lock? = s.lock? := by
  funext j
  rw [h.lock?]
  split
  · next hj => rw [hj, h.lock?_before, hb]
  · rfl

end Turn

theorem handles_eq_zero_iff : s.handles m = 0 ↔ ∀ i, s.handle? i ≠ some m := by
  simp only [handles, List.countP_eq_zero, beq_iff_eq]
  constructor
  · intro h i hi
    obtain ⟨stage, hs, hm⟩ := Option.bind_eq_some_iff.1 hi
    obtain ⟨task, ht, rfl⟩ := Option.map_eq_some_iff.1 hs
    exact h task (List.mem_of_getElem? ht) hm
  · intro h task ht hm
    obtain ⟨i, hi⟩ := List.getElem?_of_mem ht
    exact h i (by simp [handle?, stage?, hi, hm])

theorem shared_eq_iff {table : List (Resource × Nat)} {locked : List Nat} {fresh : Nat} :
    s.shared = (table, locked, fresh) ↔ s.table = table ∧ s.locked = locked ∧ s.fresh = fresh := by
  simp [shared]

/-- The table has one mutex for each of its resources, and it has those to which calls have handles
and no others. -/
structure Tracked (s : State σ) : Prop where
  distinct : s.table.Pairwise fun e f => e.1 ≠ f.1 ∧ e.2 ≠ f.2
  lt_fresh : ∀ e ∈ s.table, e.2 < s.fresh
  entered : ∀ i m, s.handle? i = some m → ∃ r, s.resource? i = some r ∧ (r, m) ∈ s.table
  used : ∀ e ∈ s.table, ∃ i, s.handle? i = some e.2

theorem Tracked.frame {locked : List Nat} (h : Tracked s) (ht : Turn s s' i before after)
    (hs : s'.shared = (s.table, locked, s.fresh)) (hh : after.handle? = before.handle?) :
    Tracked s' := by
  obtain ⟨htable, -, hfresh⟩ := shared_eq_iff.1 hs
  obtain ⟨hd, hl, he, hu⟩ := h
  constructor
  · rwa [htable]
  · rwa [htable, hfresh]
  · rwa [htable, funext ht.resource, ht.handle?_eq hh]
  · rwa [htable, ht.handle?_eq hh]

theorem Tracked.eq_of_mem (h : Tracked s) {e f : Resource × Nat} (he : e ∈ s.table)
    (hf : f ∈ s.table) (heq : e.1 = f.1 ∨ e.2 = f.2) : e = f := by
  by_contra hne
  have hsymm : Std.Symm fun e f : Resource × Nat => e.1 ≠ f.1 ∧ e.2 ≠ f.2 :=
    ⟨fun _ _ h => ⟨h.1.symm, h.2.symm⟩⟩
  obtain ⟨h1, h2⟩ := h.distinct.forall he hf hne
  exact heq.elim h1 h2

theorem mem_of_mutex? {r : Resource} (h : s.mutex? r = some m) : (r, m) ∈ s.table := by
  obtain ⟨e, he, rfl⟩ := Option.map_eq_some_iff.1 h
  have hr : e.1 = r := by simpa using List.find?_some he
  exact hr ▸ List.mem_of_find?_eq_some he

theorem not_mem_of_mutex? {r : Resource} (h : s.mutex? r = none) : (r, m) ∉ s.table := by
  intro hm
  have hnone := List.find?_eq_none.1 (Option.map_eq_none_iff.1 h) (r, m) hm
  simp at hnone

theorem Tracked.mutex? (h : Tracked s) {r : Resource} (hm : (r, m) ∈ s.table) :
    s.mutex? r = some m := by
  cases hr : s.mutex? r with
  | none => exact absurd hm (not_mem_of_mutex? hr)
  | some n =>
    have he := h.eq_of_mem (mem_of_mutex? hr) hm (.inl rfl)
    rw [(Prod.mk.inj he).2]

/- A call without a handle takes one, by joining the calls for a resource or by adding an entry. -/

theorem Tracked.used_of_gain (h : Tracked s) (ht : Turn s s' i before after)
    (hb : before.handle? = none) {e : Resource × Nat} (he : e ∈ s.table) :
    ∃ j, s'.handle? j = some e.2 := by
  obtain ⟨j, hj⟩ := h.used e he
  have hji : j ≠ i := by
    rintro rfl
    rw [ht.handle?_before, hb] at hj
    cases hj
  exact ⟨j, by rw [ht.handle?, if_neg hji, hj]⟩

theorem Tracked.join {r : Resource} (h : Tracked s) (ht : Turn s s' i .ready (.waiting m))
    (hr : s.resource? i = some r) (hm : s.mutex? r = some m) (hs : s'.shared = s.shared) :
    Tracked s' := by
  obtain ⟨htable, -, hfresh⟩ := shared_eq_iff.1 hs
  refine ⟨htable ▸ h.distinct, by rw [htable, hfresh]; exact h.lt_fresh, ?_, ?_⟩
  · intro j n hj
    rw [ht.resource, htable]
    rw [ht.handle?] at hj
    split at hj
    · next hji =>
      obtain rfl := Option.some.inj hj
      exact ⟨r, hji ▸ hr, mem_of_mutex? hm⟩
    · exact h.entered j n hj
  · intro e he
    exact h.used_of_gain ht rfl (htable ▸ he)

theorem Tracked.create {r : Resource} (h : Tracked s) (ht : Turn s s' i .ready (.waiting s.fresh))
    (hr : s.resource? i = some r) (hm : s.mutex? r = none)
    (hs : s'.shared = (s.table ++ [(r, s.fresh)], s.locked, s.fresh + 1)) : Tracked s' := by
  obtain ⟨htable, -, hfresh⟩ := shared_eq_iff.1 hs
  have hmem (e : Resource × Nat) : e ∈ s'.table ↔ e ∈ s.table ∨ e = (r, s.fresh) := by
    rw [htable, List.mem_append, List.mem_singleton]
  constructor
  · rw [htable]
    refine List.pairwise_append.2 ⟨h.distinct, List.pairwise_singleton _ _, fun e he f hf => ?_⟩
    obtain rfl := List.mem_singleton.1 hf
    refine ⟨?_, Nat.ne_of_lt (h.lt_fresh e he)⟩
    rintro rfl
    exact not_mem_of_mutex? hm he
  · intro e he
    rw [hfresh]
    cases (hmem e).1 he with
    | inl he => exact Nat.lt_succ_of_lt (h.lt_fresh e he)
    | inr he => exact he ▸ Nat.lt_succ_self _
  · intro j n hj
    rw [ht.resource]
    rw [ht.handle?] at hj
    split at hj
    · next hji =>
      obtain rfl := Option.some.inj hj
      exact ⟨r, hji ▸ hr, (hmem _).2 (.inr rfl)⟩
    · obtain ⟨r', hr', he⟩ := h.entered j n hj
      exact ⟨r', hr', (hmem _).2 (.inl he)⟩
  · intro e he
    cases (hmem e).1 he with
    | inl he => exact h.used_of_gain ht rfl he
    | inr he => exact ⟨i, by rw [ht.handle?, if_pos rfl, he]; rfl⟩

/- A call drops its handle. Its entry stays if another call still has a handle to the mutex. -/

theorem Tracked.leave (h : Tracked s) (ht : Turn s s' i (.released m) .done)
    (hn : ∀ r n, s.resource? i = some r → s.mutex? r = some n → s'.handles n ≠ 0)
    (hs : s'.shared = s.shared) : Tracked s' := by
  obtain ⟨htable, -, hfresh⟩ := shared_eq_iff.1 hs
  refine ⟨htable ▸ h.distinct, by rw [htable, hfresh]; exact h.lt_fresh, ?_, ?_⟩
  · intro j n hj
    rw [ht.resource, htable]
    rw [ht.handle?] at hj
    split at hj
    · cases hj
    · exact h.entered j n hj
  · intro e he
    rw [htable] at he
    obtain ⟨j, hj⟩ := h.used e he
    by_cases hji : j = i
    · obtain ⟨r, hr, hmem⟩ := h.entered j e.2 hj
      have hleft := hn r e.2 (hji ▸ hr) (h.mutex? hmem)
      by_contra hnone
      exact hleft (handles_eq_zero_iff.2 fun k hk => hnone ⟨k, hk⟩)
    · exact ⟨j, by rw [ht.handle?, if_neg hji, hj]⟩

theorem Tracked.clear {r : Resource} {n : Nat} (h : Tracked s)
    (ht : Turn s s' i (.released m) .done) (hr : s.resource? i = some r)
    (hm : s.mutex? r = some n) (hn : s'.handles n = 0)
    (hs : s'.shared = (s.table.filter fun e => e.1 != r, s.locked, s.fresh)) : Tracked s' := by
  obtain ⟨htable, -, hfresh⟩ := shared_eq_iff.1 hs
  obtain ⟨r', hr', hmem⟩ := h.entered i m ht.handle?_before
  obtain rfl := Option.some.inj (hr.symm.trans hr')
  obtain rfl : m = n := Option.some.inj ((h.mutex? hmem).symm.trans hm)
  have hkept (e : Resource × Nat) : e ∈ s'.table ↔ e ∈ s.table ∧ e.1 ≠ r := by
    rw [htable, List.mem_filter, bne_iff_ne]
  constructor
  · rw [htable]
    exact h.distinct.sublist List.filter_sublist
  · intro e he
    rw [hfresh]
    exact h.lt_fresh e ((hkept e).1 he).1
  · intro j n hj
    have hother : n ≠ m := by
      rintro rfl
      exact handles_eq_zero_iff.1 hn j hj
    rw [ht.resource]
    rw [ht.handle?] at hj
    split at hj
    · cases hj
    · obtain ⟨r', hr', he⟩ := h.entered j n hj
      refine ⟨r', hr', (hkept _).2 ⟨he, ?_⟩⟩
      rintro rfl
      exact hother (Prod.mk.inj (h.eq_of_mem he hmem (.inl rfl))).2
  · intro e he
    obtain ⟨he, hne⟩ := (hkept e).1 he
    obtain ⟨j, hj⟩ := h.used e he
    have hji : j ≠ i := by
      rintro rfl
      have hmutex : e.2 = m := Option.some.inj (hj.symm.trans ht.handle?_before)
      exact hne (congrArg Prod.fst (h.eq_of_mem he hmem (.inr hmutex)))
    exact ⟨j, by rw [ht.handle?, if_neg hji, hj]⟩

theorem Tracked.turn (h : Tracked s) (ht : Turn s s' i before after) : Tracked s' := by
  cases ht.change with
  | finish hs => exact h.frame ht hs rfl
  | join hr hm hs => exact h.join ht hr hm hs
  | create hr hm hs => exact h.create ht hr hm hs
  | acquire hm hs => exact h.frame ht hs rfl
  | answer hs => exact h.frame ht hs rfl
  | release hs => exact h.frame ht hs rfl
  | leave hn hs => exact h.leave ht hn hs
  | clear hr hm hn hs => exact h.clear ht hr hm hn hs

/-- The locked mutexes are those that some call holds, and no two calls hold the same one. -/
structure Exclusive (s : State σ) : Prop where
  locked : ∀ m, m ∈ s.locked ↔ ∃ i, s.lock? i = some m
  unique : ∀ i j m, s.lock? i = some m → s.lock? j = some m → i = j

theorem Exclusive.frame {table : List (Resource × Nat)} {fresh : Nat} (h : Exclusive s)
    (ht : Turn s s' i before after) (hs : s'.shared = (table, s.locked, fresh))
    (hh : after.lock? = before.lock?) : Exclusive s' := by
  obtain ⟨hlocked, hu⟩ := h
  constructor
  · rwa [(shared_eq_iff.1 hs).2.1, ht.lock?_eq hh]
  · rwa [ht.lock?_eq hh]

theorem Exclusive.acquire (h : Exclusive s) (ht : Turn s s' i (.waiting m) (.holding m))
    (hm : m ∉ s.locked) (hl : s'.locked = m :: s.locked) : Exclusive s' := by
  have hfree (j : Nat) : s.lock? j ≠ some m := fun hj => hm ((h.locked m).2 ⟨j, hj⟩)
  constructor
  · intro n
    rw [hl, List.mem_cons, h.locked]
    constructor
    · rintro (rfl | ⟨j, hj⟩)
      · exact ⟨i, by rw [ht.lock?, if_pos rfl]; rfl⟩
      · have hji : j ≠ i := by
          rintro rfl
          rw [ht.lock?_before] at hj
          cases hj
        exact ⟨j, by rw [ht.lock?, if_neg hji, hj]⟩
    · rintro ⟨j, hj⟩
      rw [ht.lock?] at hj
      split at hj
      · exact .inl (Option.some.inj hj).symm
      · exact .inr ⟨j, hj⟩
  · intro j k n hj hk
    rw [ht.lock?] at hj hk
    split at hj
    · next hji =>
      obtain rfl : m = n := Option.some.inj hj
      split at hk
      · next hki => rw [hji, hki]
      · exact absurd hk (hfree k)
    · split at hk
      · obtain rfl : m = n := Option.some.inj hk
        exact absurd hj (hfree j)
      · exact h.unique j k n hj hk

theorem Exclusive.release (h : Exclusive s) (ht : Turn s s' i (.answered m) (.released m))
    (hl : s'.locked = s.locked.filter (· != m)) : Exclusive s' := by
  have hi : s.lock? i = some m := ht.lock?_before
  constructor
  · intro n
    rw [hl, List.mem_filter, h.locked, bne_iff_ne]
    constructor
    · rintro ⟨⟨j, hj⟩, hne⟩
      have hji : j ≠ i := by
        rintro rfl
        exact hne (Option.some.inj (hj.symm.trans hi))
      exact ⟨j, by rw [ht.lock?, if_neg hji, hj]⟩
    · rintro ⟨j, hj⟩
      rw [ht.lock?] at hj
      split at hj
      · cases hj
      · next hji =>
        refine ⟨⟨j, hj⟩, ?_⟩
        rintro rfl
        exact hji (h.unique j i n hj hi)
  · intro j k n hj hk
    rw [ht.lock?] at hj hk
    split at hj
    · cases hj
    · split at hk
      · cases hk
      · exact h.unique j k n hj hk

theorem Exclusive.turn (h : Exclusive s) (ht : Turn s s' i before after) : Exclusive s' := by
  cases ht.change with
  | finish hs => exact h.frame ht hs rfl
  | join hr hm hs => exact h.frame ht hs rfl
  | create hr hm hs => exact h.frame ht hs rfl
  | acquire hm hs => exact h.acquire ht hm (shared_eq_iff.1 hs).2.1
  | answer hs => exact h.frame ht hs rfl
  | release hs => exact h.release ht (shared_eq_iff.1 hs).2.1
  | leave hn hs => exact h.frame ht hs rfl
  | clear hr hm hn hs => exact h.frame ht hs rfl

theorem run_tracked_exclusive {schedule : List Nat} (ht : Tracked s) (he : Exclusive s)
    (h : s.run session schedule = some s') : Tracked s' ∧ Exclusive s' := by
  induction schedule generalizing s with
  | nil =>
    obtain rfl := Option.some.inj h
    exact ⟨ht, he⟩
  | cons i schedule ih =>
    obtain ⟨u, hu, h⟩ := Option.bind_eq_some_iff.1 h
    obtain ⟨before, after, hturn⟩ := turn_of_step hu
    exact ih (ht.turn hturn) (he.turn hturn) h

theorem tracked_exclusive_of_ready {tasks : List Task} {state : σ}
    (h : ∀ task ∈ tasks, task.stage = .ready) :
    let s : State σ := { session := state, tasks }
    Tracked s ∧ Exclusive s := by
  intro s
  have hstage (i : Nat) (stage : Stage) (hi : s.stage? i = some stage) : stage = .ready := by
    obtain ⟨task, ht, rfl⟩ := Option.map_eq_some_iff.1 hi
    exact h task (List.mem_of_getElem? ht)
  have hhandle (i m : Nat) : s.handle? i ≠ some m := by
    intro hi
    obtain ⟨stage, hs, hm⟩ := Option.bind_eq_some_iff.1 hi
    obtain rfl := hstage i stage hs
    cases hm
  have hlock (i m : Nat) : s.lock? i ≠ some m := by
    intro hi
    obtain ⟨stage, hs, hm⟩ := Option.bind_eq_some_iff.1 hi
    obtain rfl := hstage i stage hs
    cases hm
  refine ⟨⟨.nil, ?_, fun i m hi => absurd hi (hhandle i m), ?_⟩,
    ⟨fun m => ?_, fun i j m hi => absurd hi (hlock i m)⟩⟩
  · intro e he
    cases he
  · intro e he
    cases he
  · constructor
    · intro hm
      cases hm
    · rintro ⟨i, hi⟩
      exact absurd hi (hlock i m)

theorem exists_step {task : Task} (hi : s.tasks[i]? = some task) (hd : task.stage ≠ .done)
    (hw : ∀ m, task.stage = .waiting m → m ∉ s.locked) : ∃ s', s.step session i = some s' := by
  obtain ⟨prepared, resource, stage, answer⟩ := task
  unfold step
  simp only [hi]
  cases stage with
  | ready =>
    cases prepared with
    | error e => exact ⟨_, rfl⟩
    | ok statement =>
      cases resource with
      | none => exact ⟨_, rfl⟩
      | some r => exact ⟨_, rfl⟩
  | waiting m =>
    have hm := hw m rfl
    simp [hm]
  | holding m =>
    cases prepared with
    | error e => exact ⟨_, rfl⟩
    | ok statement => exact ⟨_, rfl⟩
  | answered m => exact ⟨_, rfl⟩
  | released m => exact ⟨_, rfl⟩
  | done => exact absurd rfl hd

/-- No call waits for ever: a locked mutex is held by a call that can go on. -/
theorem Exclusive.exists_step (h : Exclusive s) (hd : ¬s.isDone) :
    ∃ i s', s.step session i = some s' := by
  by_cases hl : ∃ i m, s.lock? i = some m
  · obtain ⟨i, m, hi⟩ := hl
    obtain ⟨stage, hs, hm⟩ := Option.bind_eq_some_iff.1 hi
    obtain ⟨task, ht, rfl⟩ := Option.map_eq_some_iff.1 hs
    refine ⟨i, State.exists_step ht ?_ ?_⟩
    · intro hdone
      rw [hdone] at hm
      cases hm
    · intro n hwait
      rw [hwait] at hm
      cases hm
  · have hany : ∃ task ∈ s.tasks, task.stage ≠ .done := by
      by_contra hnone
      refine hd (List.all_eq_true.2 fun task ht => decide_eq_true ?_)
      by_contra hne
      exact hnone ⟨task, ht, hne⟩
    obtain ⟨task, ht, hne⟩ := hany
    obtain ⟨i, hi⟩ := List.getElem?_of_mem ht
    refine ⟨i, State.exists_step hi hne fun m _ hm => ?_⟩
    obtain ⟨j, hj⟩ := (h.locked m).1 hm
    exact hl ⟨j, m, hj⟩

end State

variable {σ : Type} {schema : VersionedSchema} {calls : List (Call × Instant)} {state : σ}

theorem ofCall_ready {call : Call} {t : Instant} {task : Task}
    (h : (Task.ofCall schema call t).result = .ok task) : task.stage = .ready := by
  obtain ⟨prepared, -, h⟩ := Outcome.result_bind_eq_ok_iff.1 h
  obtain rfl := Except.ok.inj h
  rfl

theorem start_eq_ok {s : State σ} (h : (start schema calls state).result = .ok s) :
    ∃ tasks, s = { session := state, tasks } ∧ ∀ task ∈ tasks, task.stage = .ready := by
  obtain ⟨tasks, ht, h⟩ := Outcome.result_bind_eq_ok_iff.1 h
  refine ⟨tasks, (Except.ok.inj h).symm, fun task hmem => ?_⟩
  obtain ⟨call, -, hcall⟩ := (Outcome.mapM_eq_ok_iff.1 ht).flip.exists_of_mem hmem
  exact ofCall_ready hcall

/-- Calls are executed at the same time, their steps in any order. At any point at most one of them
runs a statement for a resource, those with a handle for a resource have the handle of one mutex,
and the table has an entry for a resource exactly if one of them has such a handle; so it is empty
once all are done. Until then one of them can go on. -/
theorem run_start_exclusive {session : Session σ} {schedule : List Nat} {s₀ s : State σ}
    (hstart : (start schema calls state).result = .ok s₀)
    (hrun : s₀.run session schedule = some s) :
    (∀ (i j : Nat) (a b : Task) (r : Resource), s.tasks[i]? = some a → s.tasks[j]? = some b →
      a.resource = some r → b.resource = some r → a.stage.isRunning → b.stage.isRunning → i = j) ∧
    (∀ a ∈ s.tasks, ∀ b ∈ s.tasks, ∀ (r : Resource) (m n : Nat), a.resource = some r →
      b.resource = some r → a.stage.handle? = some m → b.stage.handle? = some n → m = n) ∧
    (∀ r : Resource, (∃ m, (r, m) ∈ s.table) ↔
      ∃ a ∈ s.tasks, a.resource = some r ∧ a.stage.handle?.isSome) ∧
    (s.isDone → s.table = []) ∧
    (¬s.isDone → ∃ i s', s.step session i = some s') := by
  obtain ⟨tasks, rfl, hready⟩ := start_eq_ok hstart
  obtain ⟨ht, he⟩ := State.tracked_exclusive_of_ready hready
  obtain ⟨ht, he⟩ := State.run_tracked_exclusive ht he hrun
  have hentry {a : Task} {r : Resource} {m : Nat} (ha : a ∈ s.tasks) (hr : a.resource = some r)
      (hm : a.stage.handle? = some m) : (r, m) ∈ s.table := by
    obtain ⟨i, hi⟩ := List.getElem?_of_mem ha
    obtain ⟨r', hr', hmem⟩ := ht.entered i m (by simp [State.handle?, State.stage?, hi, hm])
    obtain rfl : r = r' := by simpa [State.resource?, hi, hr] using hr'
    exact hmem
  have hsame {a b : Task} {r : Resource} {m n : Nat} (ha : a ∈ s.tasks) (hb : b ∈ s.tasks)
      (har : a.resource = some r) (hbr : b.resource = some r) (hm : a.stage.handle? = some m)
      (hn : b.stage.handle? = some n) : m = n :=
    (Prod.mk.inj (ht.eq_of_mem (hentry ha har hm) (hentry hb hbr hn) (.inl rfl))).2
  have hholder {r : Resource} {m : Nat} (hmem : (r, m) ∈ s.table) :
      ∃ a ∈ s.tasks, a.resource = some r ∧ a.stage.handle? = some m := by
    obtain ⟨i, hi⟩ := ht.used (r, m) hmem
    obtain ⟨r', hr, hmem'⟩ := ht.entered i m hi
    obtain ⟨stage, hs, hm⟩ := Option.bind_eq_some_iff.1 hi
    obtain ⟨a, ha, rfl⟩ := Option.map_eq_some_iff.1 hs
    obtain rfl : r = r' := (Prod.mk.inj (ht.eq_of_mem hmem hmem' (.inr rfl))).1
    exact ⟨a, List.mem_of_getElem? ha, by simpa [State.resource?, ha] using hr, hm⟩
  refine ⟨?_, ?_, ?_, ?_, he.exists_step⟩
  · intro i j a b r hi hj har hbr ha hb
    rw [← Stage.isSome_lock?, Option.isSome_iff_exists] at ha hb
    obtain ⟨m, hm⟩ := ha
    obtain ⟨n, hn⟩ := hb
    obtain rfl := hsame (List.mem_of_getElem? hi) (List.mem_of_getElem? hj) har hbr
      (Stage.handle?_of_lock? hm) (Stage.handle?_of_lock? hn)
    exact he.unique i j m (by simp [State.lock?, State.stage?, hi, hm])
      (by simp [State.lock?, State.stage?, hj, hn])
  · intro a ha b hb r m n har hbr hm hn
    exact hsame ha hb har hbr hm hn
  · intro r
    constructor
    · rintro ⟨m, hmem⟩
      obtain ⟨a, ha, hr, hm⟩ := hholder hmem
      exact ⟨a, ha, hr, by rw [hm]; rfl⟩
    · rintro ⟨a, ha, hr, hm⟩
      obtain ⟨m, hm⟩ := Option.isSome_iff_exists.1 hm
      exact ⟨m, hentry ha hr hm⟩
  · intro hd
    refine List.eq_nil_iff_forall_not_mem.2 fun ⟨r, m⟩ hmem => ?_
    obtain ⟨a, ha, -, hm⟩ := hholder hmem
    have hdone : a.stage = .done := of_decide_eq_true (List.all_eq_true.1 hd a ha)
    rw [hdone] at hm
    cases hm

/-- The second write has a handle when the first one takes its turn, and still when it is done. -/
theorem run_start_exclusive_two_writes :
    let resolve : Call → Except Error Statement := fun call =>
      let key := call.resultKey
      .ok ⟨s!"CREATE ({key}) WITH {key} RETURN {key}", call.params⟩
    let dispatch : Dispatch :=
      ⟨⟨"createPerson", .named "Person", .create, resolve⟩, .create "Person"⟩
    let schema : VersionedSchema :=
      ⟨.empty, {}, .ofList [("createPerson", dispatch)], .empty, .ofList [("createPerson", ())]⟩
    let call : Call := { field := "createPerson", params := .ofList [("id", .string "ne")] }
    let calls := [(call, Instant.startOf 0), (call, Instant.startOf 1)]
    let empty : Recording := {}
    let schedule := [0, 1, 0, 0, 0, 1, 0, 1, 1, 1]
    ∃ s₀ s, (start schema calls empty).result = .ok s₀ ∧
      s₀.run Recording.session schedule = some s ∧ s.submitted.length = 2 ∧ s.isDone ∧
      s.table = [] := by
  intro resolve dispatch schema call calls empty schedule
  have hok : (start schema calls empty).result.toOption.any fun s₀ =>
      (s₀.run Recording.session schedule).any fun s => s.isDone && s.submitted.length == 2 := by
    decide +kernel
  cases hstart : (start schema calls empty).result with
  | error e =>
    rw [hstart] at hok
    cases hok
  | ok s₀ =>
    rw [hstart] at hok
    obtain ⟨s, hrun, hs⟩ := (Option.any_eq_true _ (s₀.run Recording.session schedule)).1 hok
    obtain ⟨hd, hlen⟩ := Bool.and_eq_true_iff.1 hs
    exact ⟨s₀, s, rfl, hrun, beq_iff_eq.1 hlen, hd, (run_start_exclusive hstart hrun).2.2.2.1 hd⟩

end TemporalGraph.Concurrent
