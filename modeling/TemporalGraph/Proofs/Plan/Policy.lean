import TemporalGraph.Plan
import TemporalGraph.Proofs.Outcome
import TemporalGraph.Proofs.Plan.NodeClause
/-!
Where the match policy matters to a plan. Main statements: a statement with the fragment that the
plan looks for first gets every edit of the plan, or fails, the same under every policy; without the
fragment, only the policy decides.
-/

namespace TemporalGraph

def Fault.isPatternNotFound : Fault → Bool
  | .error (.patternNotFound ..) => true
  | _ => false

def Config.withPolicy (c : Config) (p : MatchPolicy) : Config := { c with matchPolicy := p }

namespace Plan

/-- The statement has the fragment that the plan looks for first. -/
def Finds (p : Plan) (call : Call) (s : Statement) : Prop :=
  match p with
  | read t => Read.anchor call.resultKey t ++ [' '] <:+: s.query.toList
  | create _ => (Create.terminal call.resultKey).toList <:+: s.query.toList
  | attach t => ∃ n : NodeClause, n.WellFormed ∧ n.render t.toList <:+: s.query.toList
  | unsupported => True

def fragment (p : Plan) (call : Call) : String :=
  match p with
  | read t => Read.filterPattern call.resultKey t
  | create _ => Create.terminal call.resultKey
  | attach t => Attach.targetPattern t
  | unsupported => ""

/-- A statement with every edit of the plan, and with its parameters as they were. -/
inductive Rewritten (c : Config) (call : Call) (s : Statement) : Plan → Statement → Prop where
  | read {t : String} {before after before' after' : List Char}
      (h : s.query.toList = before ++ (Read.anchor call.resultKey t ++ [' ']) ++ after)
      (h' : before ++ Read.anchor call.resultKey t ++ (Read.windowFilter c).toList ++ after =
        before' ++ Read.anchor call.resultKey t ++ after') :
      Rewritten c call s (.read t) { s with
        query := String.ofList (before' ++ (Read.traversal c call.resultKey t).toList ++ after') }
  | create {t : String} {construction widened rest : List Char}
      (h : s.query.toList = construction ++ (Create.terminal call.resultKey).toList ++ rest)
      (hw : Scope.carry? Create.carried call.resultKey.toList (Text.trimEnd construction) =
        some widened) :
      Rewritten c call s (.create t) { s with
        query := String.ofList ((Create.prelude c t).toList ++ widened ++
          (Create.epilogue c call.resultKey).toList ++
          (Create.terminal call.resultKey).toList ++ rest) }
  | attach {t : String} {n : NodeClause} {before after : List Char} (hn : n.WellFormed)
      (h : s.query.toList = before ++ n.render t.toList ++ after)
      (hb : Attach.batchParam? s.params = none) :
      Rewritten c call s (.attach t) { s with
        query := String.ofList (before ++ n.render (c.labels.resourceLabels t).toList ++ after) }
  | attachBatch {t batch : String} {n n' : NodeClause} {before after before' after' : List Char}
      (hn : n.WellFormed) (h : s.query.toList = before ++ n.render t.toList ++ after)
      (hb : Attach.batchParam? s.params = some batch) (hn' : n'.WellFormed)
      (h' : before ++ n.render (c.labels.resourceLabels t).toList ++ after =
        before' ++ n'.render (c.labels.resourceLabels t).toList ++ after') :
      Rewritten c call s (.attach t) { s with
        query := String.ofList (before' ++
          n'.renderBatch (c.labels.resourceLabels t).toList batch ++ after') }

theorem Rewritten.params {c : Config} {call : Call} {s s' : Statement} {p : Plan}
    (h : Rewritten c call s p s') : s'.params = s.params := by
  cases h <;> rfl

theorem Read.apply_of_finds {t : String} {call : Call} {s : Statement} (c : Config)
    (h : (Plan.read t).Finds call s) :
    ∃ s', Rewritten c call s (.read t) s' ∧
      ∀ p, Read.apply t call s (c.withPolicy p) = ⟨[], .ok s'⟩ := by
  obtain ⟨before, after, hfirst⟩ := Text.exists_splitFirst? h
  -- The filter goes in behind the root match, so the root match is there still.
  have hroot : Read.anchor call.resultKey t <:+:
      before ++ Read.anchor call.resultKey t ++ (Read.windowFilter c).toList ++ after :=
    ⟨before, (Read.windowFilter c).toList ++ after, by simp⟩
  obtain ⟨before', after', hsecond⟩ := Text.exists_splitFirst? hroot
  refine ⟨_, .read (Text.splitFirst?_eq_append hfirst) (Text.splitFirst?_eq_append hsecond),
    fun p => ?_⟩
  simp only [Read.apply, hfirst]
  rw [show Read.windowFilter (c.withPolicy p) = Read.windowFilter c from rfl, hsecond]
  rfl

theorem Create.apply_of_finds {t : String} {call : Call} {s : Statement} (c : Config)
    (h : (Plan.create t).Finds call s) :
    (∀ p, Create.apply t call s (c.withPolicy p) = ⟨[], .error .scopeOutOfOrder⟩) ∨
    ∃ s', Rewritten c call s (.create t) s' ∧
      ∀ p, Create.apply t call s (c.withPolicy p) = ⟨[], .ok s'⟩ := by
  obtain ⟨construction, rest, hlast⟩ := Text.exists_splitLast? h
  cases hw : Scope.carry? Create.carried call.resultKey.toList (Text.trimEnd construction) with
  | none => exact .inl fun p => Create.apply_of_carry?_eq_none hlast hw
  | some widened =>
    exact .inr ⟨_, .create (Text.splitLast?_eq_append hlast) hw, fun p =>
      Create.apply_of_carry? hlast hw⟩

theorem Attach.apply_of_finds {t : String} {call : Call} {s : Statement} (c : Config)
    (h : (Plan.attach t).Finds call s) :
    ∃ s', Rewritten c call s (.attach t) s' ∧
      ∀ p, Attach.apply t call s (c.withPolicy p) = ⟨[], .ok s'⟩ := by
  obtain ⟨f, hfirst⟩ := Option.ne_none_iff_exists'.1 fun hn =>
    NodeClause.findFirst?_read?_eq_none_iff.1 hn h
  obtain ⟨hn, he⟩ := NodeClause.findFirst?_read?_eq_some hfirst
  cases hb : Attach.batchParam? s.params with
  | none =>
    refine ⟨_, .attach hn he hb, fun p => ?_⟩
    simp only [Attach.apply, hfirst, hb]
    rfl
  | some batch =>
    -- The target match is redirected to the labels of the resource, so it is found under them.
    have hresource : ∃ n : NodeClause, n.WellFormed ∧
        n.render (c.labels.resourceLabels t).toList <:+:
          f.before ++ f.item.render (c.labels.resourceLabels t).toList ++ f.after :=
      ⟨f.item, hn, f.before, f.after, rfl⟩
    obtain ⟨f', hsecond⟩ := Option.ne_none_iff_exists'.1 fun hn =>
      NodeClause.findFirst?_read?_eq_none_iff.1 hn hresource
    obtain ⟨hn', he'⟩ := NodeClause.findFirst?_read?_eq_some hsecond
    refine ⟨_, .attachBatch hn he hb hn' he', fun p => ?_⟩
    simp only [Attach.apply, hfirst, hb]
    rw [show (c.withPolicy p).labels = c.labels from rfl, hsecond]
    rfl

variable {p : Plan} {call : Call} {resolve : Call → Except Error Statement} {s : Statement}

theorem apply_of_finds (c : Config) (hs : resolve call = .ok s) (h : p.Finds call s) :
    (∃ f : Fault, ¬f.isPatternNotFound ∧
      ∀ q, p.apply call resolve (c.withPolicy q) = ⟨[], .error f⟩) ∨
    ∃ s', Rewritten c call s p s' ∧ ∀ q, p.apply call resolve (c.withPolicy q) = ⟨[], .ok s'⟩ := by
  cases p with
  | read t =>
    simp only [Plan.apply, hs, Outcome.ofExcept_ok, pure_bind]
    exact .inr (Read.apply_of_finds c h)
  | create t =>
    simp only [Plan.apply, hs, Outcome.ofExcept_ok, pure_bind]
    exact (Create.apply_of_finds c h).imp_left fun hf => ⟨.scopeOutOfOrder, by decide, hf⟩
  | attach t =>
    simp only [Plan.apply, hs, Outcome.ofExcept_ok, pure_bind]
    exact .inr (Attach.apply_of_finds c h)
  | unsupported => exact .inl ⟨_, by simp [Fault.isPatternNotFound], fun _ => rfl⟩

theorem apply_of_not_finds (c : Config) (hs : resolve call = .ok s) (h : ¬p.Finds call s) :
    p.apply call resolve c = (do unmatched c call.field (p.fragment call); return s) := by
  cases p with
  | read t =>
    have hnone := Text.splitFirst?_eq_none_iff.2 h
    simp only [Plan.apply, hs, Outcome.ofExcept_ok, pure_bind, Read.apply, hnone]
    rfl
  | create t =>
    have hnone := Text.splitLast?_eq_none_iff.2 h
    simp only [Plan.apply, hs, Outcome.ofExcept_ok, pure_bind, Create.apply, hnone]
    rfl
  | attach t =>
    have hnone := NodeClause.findFirst?_read?_eq_none_iff.2 h
    simp only [Plan.apply, hs, Outcome.ofExcept_ok, pure_bind, Attach.apply, hnone]
    rfl
  | unsupported => exact absurd trivial h

theorem apply_of_error {e : Error} (c : Config) (hs : resolve call = .error e)
    (he : ¬(Fault.error e).isPatternNotFound) :
    ∃ f : Fault, ¬f.isPatternNotFound ∧
      ∀ q, p.apply call resolve (c.withPolicy q) = ⟨[], .error f⟩ := by
  cases p with
  | unsupported => exact ⟨_, by simp [Fault.isPatternNotFound], fun _ => rfl⟩
  | _ =>
    refine ⟨.error e, he, fun q => ?_⟩
    simp only [Plan.apply, hs, Outcome.ofExcept_error_bind]
    rfl

end Plan

end TemporalGraph
