import Mathlib.Data.List.Forall2
import TemporalGraph.Outcome
/-!
Steps in sequence: what the sequence answers, from what its steps answer. Main statement: it fails
with the failure of the first step that fails.
-/

namespace List

variable {α β : Type} {R : α → β → Prop} {xs : List α} {ys : List β}

def IsFirst (p : α → Prop) (xs : List α) (x : α) : Prop :=
  ∃ before after, xs = before ++ x :: after ∧ p x ∧ ∀ y ∈ before, ¬p y

section First

variable {p : α → Prop} {x y : α}

theorem IsFirst.mem (h : IsFirst p xs x) : x ∈ xs := by
  obtain ⟨before, after, rfl, -, -⟩ := h
  exact mem_append_right before mem_cons_self

theorem not_isFirst_nil : ¬IsFirst p [] x := fun h => not_mem_nil h.mem

theorem isFirst_cons_iff : IsFirst p (y :: xs) x ↔ p y ∧ x = y ∨ ¬p y ∧ IsFirst p xs x := by
  constructor
  · rintro ⟨before, after, hxs, hx, hb⟩
    cases before with
    | nil =>
      obtain ⟨rfl, rfl⟩ := cons.inj hxs
      exact .inl ⟨hx, rfl⟩
    | cons z before =>
      obtain ⟨rfl, rfl⟩ := cons.inj hxs
      obtain ⟨hy, hb⟩ := forall_mem_cons.1 hb
      exact .inr ⟨hy, before, after, rfl, hx, hb⟩
  · rintro (⟨hy, rfl⟩ | ⟨hy, before, after, rfl, hx, hb⟩)
    · exact ⟨[], xs, rfl, hy, forall_mem_nil _⟩
    · exact ⟨y :: before, after, rfl, hx, forall_mem_cons.2 ⟨hy, hb⟩⟩

theorem exists_isFirst_iff : (∃ x, IsFirst p xs x) ↔ ∃ x ∈ xs, p x := by
  constructor
  · rintro ⟨x, before, after, rfl, hx, -⟩
    exact ⟨x, mem_append_right before mem_cons_self, hx⟩
  · intro h
    induction xs with
    | nil => simp at h
    | cons y xs ih =>
      by_cases hy : p y
      · exact ⟨y, isFirst_cons_iff.2 (.inl ⟨hy, rfl⟩)⟩
      · obtain ⟨x, hx⟩ := ih (by simpa [hy] using h)
        exact ⟨x, isFirst_cons_iff.2 (.inr ⟨hy, hx⟩)⟩

end First

theorem Forall₂.exists_of_mem {x : α} (h : Forall₂ R xs ys) (hx : x ∈ xs) : ∃ y ∈ ys, R x y := by
  induction h with
  | nil => cases hx
  | cons hy _ ih =>
    cases hx with
    | head => exact ⟨_, mem_cons_self, hy⟩
    | tail _ hx =>
      obtain ⟨y, hmem, hy⟩ := ih hx
      exact ⟨y, mem_cons_of_mem _ hmem, hy⟩

theorem exists_forall₂_iff : (∃ ys, Forall₂ R xs ys) ↔ ∀ x ∈ xs, ∃ y, R x y := by
  constructor
  · intro ⟨ys, h⟩ x hx
    obtain ⟨y, -, hy⟩ := h.exists_of_mem hx
    exact ⟨y, hy⟩
  · intro h
    induction xs with
    | nil => exact ⟨[], .nil⟩
    | cons x xs ih =>
      obtain ⟨y, hy⟩ := h x mem_cons_self
      obtain ⟨ys, hys⟩ := ih fun z hz => h z (mem_cons_of_mem _ hz)
      exact ⟨y :: ys, .cons hy hys⟩

end List

namespace Except

variable {ε α β : Type}

theorem ok_bind (a : α) (f : α → Except ε β) : (ok a >>= f) = f a := rfl

theorem bind_eq_ok {x : Except ε α} {f : α → Except ε β} {b : β} (h : (x >>= f) = ok b) :
    ∃ a, x = ok a ∧ f a = ok b := by
  cases x with
  | error e => cases h
  | ok a => exact ⟨a, rfl, h⟩

theorem of_guard {c : Prop} [Decidable c] {e : ε} {f : Unit → Except ε β} {b : β}
    (h : (if c then error e >>= f else f ()) = ok b) : ¬c ∧ f () = ok b := by
  by_cases hc : c
  · rw [if_pos hc] at h
    cases h
  · rw [if_neg hc] at h
    exact ⟨hc, h⟩

theorem mapM_eq_ok {f : α → Except ε β} {xs : List α} {ys : List β}
    (h : List.Forall₂ (fun x y => f x = ok y) xs ys) : xs.mapM f = ok ys := by
  induction h with
  | nil => rfl
  | cons hx _ ih =>
    rw [List.mapM_cons, hx, ok_bind, ih]
    rfl

end Except

namespace Option

variable {α β : Type}

theorem mapM_eq_some_map {f : α → Option β} {g : α → β} {xs : List α}
    (h : ∀ x ∈ xs, f x = some (g x)) : xs.mapM f = some (xs.map g) := by
  induction xs with
  | nil => rfl
  | cons x xs ih =>
    obtain ⟨hx, hxs⟩ := List.forall_mem_cons.1 h
    rw [List.mapM_cons, hx, ih hxs]
    rfl

end Option

namespace TemporalGraph.Outcome

variable {α β : Type}

theorem ofExcept_ok (a : α) : ofExcept (.ok a) = pure a := rfl

theorem ofExcept_error_bind (e : Error) (f : α → Outcome β) :
    (ofExcept (.error e) >>= f) = fail e := rfl

theorem result_map_eq_ok_iff {f : α → β} {x : Outcome α} {b : β} :
    (f <$> x).result = .ok b ↔ ∃ a, x.result = .ok a ∧ f a = b := by
  obtain ⟨events, result⟩ := x
  cases result <;> simp [Functor.map, Outcome.bind, Outcome.pure]

theorem result_bind (x : Outcome α) (f : α → Outcome β) :
    (x >>= f).result = (x.result >>= fun a => (f a).result) := by
  obtain ⟨events, result⟩ := x
  cases result <;> rfl

theorem result_bind_eq_ok_iff {x : Outcome α} {f : α → Outcome β} {b : β} :
    (x >>= f).result = .ok b ↔ ∃ a, x.result = .ok a ∧ (f a).result = .ok b := by
  obtain ⟨events, result⟩ := x
  cases result <;> simp

theorem result_bind_eq_error_iff {x : Outcome α} {f : α → Outcome β} {e : Fault} :
    (x >>= f).result = .error e ↔
      x.result = .error e ∨ ∃ a, x.result = .ok a ∧ (f a).result = .error e := by
  obtain ⟨events, result⟩ := x
  cases result <;> simp

theorem result_bind_pure_eq_error_iff {x : Outcome α} {f : α → β} {e : Fault} :
    (x >>= fun a => pure (f a)).result = .error e ↔ x.result = .error e := by
  rw [result_bind_eq_error_iff]
  refine or_iff_left ?_
  rintro ⟨a, -, h⟩
  cases h

theorem mapM_eq_error_iff {f : α → Outcome β} {xs : List α} {e : Fault} :
    (xs.mapM f).result = .error e ↔
      ∃ x, xs.IsFirst (fun y => ∃ e, (f y).result = .error e) x ∧ (f x).result = .error e := by
  induction xs with
  | nil =>
    refine iff_of_false (fun h => by cases h) ?_
    rintro ⟨x, hx, -⟩
    exact List.not_isFirst_nil hx
  | cons x xs ih =>
    have htail (y : β) : (do return y :: (← xs.mapM f)).result = .error e ↔
        (xs.mapM f).result = .error e := result_bind_pure_eq_error_iff
    simp only [List.mapM_cons, result_bind_eq_error_iff, htail, ih, List.isFirst_cons_iff]
    cases hx : (f x).result with
    | error e' => simp [hx]
    | ok y => simp

/-- A traversal whose steps are refused for the reasons `R` is refused for the reason of the first
step that has one. -/
theorem mapM_eq_refused_iff {R : α → Error → Prop} {f : α → Outcome β} {xs : List α} {fault : Fault}
    (h : ∀ x fault, (f x).result = .error fault ↔ ∃ e, R x e ∧ fault = .error e) :
    (xs.mapM f).result = .error fault ↔
      ∃ x e, xs.IsFirst (fun y => ∃ e, R y e) x ∧ R x e ∧ fault = .error e := by
  have hfails (x : α) : (∃ fault, (f x).result = .error fault) ↔ ∃ e, R x e := by
    simp only [h]
    exact ⟨fun ⟨_, e, he, _⟩ => ⟨e, he⟩, fun ⟨e, he⟩ => ⟨_, e, he, rfl⟩⟩
  simp only [mapM_eq_error_iff, hfails]
  simp only [h, exists_and_left]

theorem exists_of_mapM_eq_error {f : α → Outcome β} {xs : List α} {e : Fault}
    (h : (xs.mapM f).result = .error e) : ∃ x ∈ xs, (f x).result = .error e := by
  obtain ⟨x, hx, he⟩ := mapM_eq_error_iff.1 h
  exact ⟨x, hx.mem, he⟩

theorem mapM_eq_ok_iff {f : α → Outcome β} {xs : List α} {ys : List β} :
    (xs.mapM f).result = .ok ys ↔ List.Forall₂ (fun x y => (f x).result = .ok y) xs ys := by
  constructor
  · intro h
    induction xs generalizing ys with
    | nil =>
      obtain rfl := Except.ok.inj h
      exact .nil
    | cons x xs ih =>
      rw [List.mapM_cons] at h
      obtain ⟨y, hy, h⟩ := result_bind_eq_ok_iff.1 h
      obtain ⟨ys, hys, h⟩ := result_bind_eq_ok_iff.1 h
      obtain rfl := Except.ok.inj h
      exact .cons hy (ih hys)
  · intro h
    induction h with
    | nil => rfl
    | cons hx _ ih =>
      rw [List.mapM_cons]
      exact result_bind_eq_ok_iff.2 ⟨_, hx, result_bind_eq_ok_iff.2 ⟨_, ih, rfl⟩⟩

end TemporalGraph.Outcome
