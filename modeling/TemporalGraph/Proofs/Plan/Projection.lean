import TemporalGraph.Proofs.Plan.Opening
/-!
The projections of a text. Main statement: the places at which a projection is widened are the ends
of the lists that pass the key on, and they stand in the order of the text.
-/

namespace TemporalGraph.Plan.Scope

/-- A projection of a text: what stands before it, what opens it, its list, and what stands
behind. -/
structure Projection where
  before : List Char
  opening : List Char
  list : List Char
  rest : List Char

variable {text : List Char}

namespace Projection

def items (p : Projection) : List Char := Text.trimEnd p.list

def place (p : Projection) : Nat := p.before.length + p.opening.length + p.items.length

/-- The projection is one of the text, where a list runs up to the first place of `Ends`. -/
structure In (Ends : List Char → List Char → Prop) (text : List Char) (p : Projection) : Prop where
  text_eq : text = p.before ++ (p.opening ++ (p.list ++ p.rest))
  start : WordEnds p.before
  opens : Opens p.opening (p.list ++ p.rest)
  cut : Cut Ends (p.before ++ p.opening) p.list p.rest

variable {Ends Ends' : List Char → List Char → Prop} {p q : Projection}

theorem In.congr (hp : p.In Ends text)
    (h : ∀ front back, text = front ++ back → (Ends front back ↔ Ends' front back)) :
    p.In Ends' text := by
  refine ⟨hp.text_eq, hp.start, hp.opens, hp.cut.congr fun front back he => h front back ?_⟩
  rw [hp.text_eq, ← he, List.append_assoc]

theorem In.exists_append (hp : p.In Ends text) (hq : q.In Ends' text)
    (hlt : p.before.length < q.before.length) :
    ∃ f, q.before = p.before ++ p.opening ++ f ∧
      p.list ++ p.rest = f ++ (q.opening ++ (q.list ++ q.rest)) := by
  have he := hp.text_eq.symm.trans hq.text_eq
  rcases List.append_eq_append_iff.1 he with ⟨m, hm, he⟩ | ⟨m, hm, -⟩
  · rcases List.append_eq_append_iff.1 he with ⟨f, hf, he⟩ | ⟨o, ho, he⟩
    · exact ⟨f, by rw [hm, hf, List.append_assoc], he⟩
    · cases o with
      | nil => exact ⟨[], by simp [hm, ho], by simpa using he.symm⟩
      | cons c o =>
        -- The other starts with a `w`, and only the first character of an opening is one.
        obtain ⟨d, ds, hopening, hd, -⟩ := hq.opens.exists_cons
        obtain ⟨x, xs, hfirst, -, hxs⟩ := hp.opens.exists_cons
        rw [hopening] at he
        obtain rfl : d = c := (List.cons.inj he).1
        cases m with
        | nil =>
          rw [hm, List.append_nil] at hlt
          omega
        | cons y m =>
          rw [hfirst] at ho
          obtain ⟨-, rfl⟩ := List.cons.inj ho
          exact absurd hd (hxs d (by simp))
  · rw [hm, List.length_append] at hlt
    omega

theorem place_le_of_list (p : Projection) :
    p.place ≤ p.before.length + p.opening.length + p.list.length := by
  have := Text.length_trimEnd_le p.list
  rw [place, items]
  omega

theorem In.place_le (hp : p.In Ends text) (hq : q.In Ends' text)
    (hlt : p.before.length < q.before.length)
    (hends : Ends q.before (q.opening ++ (q.list ++ q.rest))) : p.place ≤ q.before.length := by
  obtain ⟨f, hf, he⟩ := hp.exists_append hq hlt
  have hle : p.list.length ≤ f.length := by
    by_contra hlong
    rcases List.append_eq_append_iff.1 he with ⟨m, hm, -⟩ | ⟨m, hm, hrest⟩
    · rw [hm, List.length_append] at hlong
      omega
    · have hne : m ≠ [] := by
        rintro rfl
        rw [hm, List.append_nil] at hlong
        omega
      rw [hf, hrest] at hends
      exact hp.cut.within f m hm hne hends
  have hplace := p.place_le_of_list
  rw [hf, List.length_append, List.length_append]
  omega

theorem In.before_lt_place (hp : p.In Ends text) : p.before.length < p.place := by
  obtain ⟨c, cs, hopening, -⟩ := hp.opens.exists_cons
  rw [place, hopening, List.length_cons]
  omega

theorem In.place_le_length (hp : p.In Ends text) : p.place ≤ text.length := by
  have hplace := p.place_le_of_list
  rw [hp.text_eq]
  simp only [List.length_append]
  omega

end Projection

/- The places where lists that pass the key on end. -/

def passes (key items : List Char) : Bool :=
  (splitItems 0 items).any fun item => Text.trim item == key

def scanned (before opening tail : List Char) : Projection :=
  ⟨before, opening, tail.take (projectionLength {} tail), tail.drop (projectionLength {} tail)⟩

theorem joins_of_isBlank {c : Char} (h : Text.isBlank c) : joins c = false := by
  have hword : ¬isWordByte c := fun hw => not_isBlank_of_isWordByte hw h
  have hdot : c ≠ '.' := by
    rintro rfl
    revert h
    decide
  have hdollar : c ≠ '$' := by
    rintro rfl
    revert h
    decide
  simp [joins, hword, hdot, hdollar]

variable {before opening tail key : List Char} {place : Nat}

/- A list is scanned as a text of its own. -/

def Outside (text : List Char) : Prop :=
  (text.foldl Scan.step {}).quote = none ∧ (text.foldl Scan.step {}).depth = 0

instance (text : List Char) : Decidable (Outside text) := inferInstanceAs (Decidable (_ ∧ _))

def ScanEnds (front back : List Char) : Prop := (front.foldl Scan.step {}).endsAt back

theorem outside_of_unquoted (hq : Unquoted before) (ht : TopLevel before) : Outside before := by
  rw [Outside, scan_of_unquoted hq]
  exact ⟨rfl, ht⟩

theorem foldl_step_of_plain {s : Scan} (hs : s.quote = none) (hne : text ≠ [])
    (h : ∀ c ∈ text, ¬Scan.isQuote c ∧ ¬isPunctuation c) :
    text.foldl Scan.step s = ⟨none, s.depth, text.getLast?.any joins⟩ := by
  induction text generalizing s with
  | nil => exact absurd rfl hne
  | cons c cs ih =>
    obtain ⟨⟨hquote, hpunctuation⟩, hcs⟩ := List.forall_mem_cons.1 h
    have hopens : ¬Scan.opens c := fun ho => hpunctuation (by simp [isPunctuation, ho])
    have hcloses : ¬Scan.closes c := fun ho => hpunctuation (by simp [isPunctuation, ho])
    have hstep : s.step c = ⟨none, s.depth, joins c⟩ := by
      simp only [Scan.step, hs, if_neg hquote, if_neg hopens, if_neg hcloses]
      rfl
    cases cs with
    | nil => simpa using hstep
    | cons d ds =>
      rw [List.foldl_cons, hstep, ih rfl (List.cons_ne_nil d ds) hcs, List.getLast?_cons_cons]

theorem foldl_step_opening (h : Outside before) (ho : Opens opening tail) :
    (before ++ opening).foldl Scan.step {} = {} := by
  obtain ⟨c, cs, hcons, -⟩ := ho.exists_cons
  have hne : opening ≠ [] := by simp [hcons]
  have hlast : opening.getLast?.any joins = false := by
    rw [Option.any_eq_false]
    exact fun d hd => by simp [joins_of_isBlank (ho.last_isBlank d hd)]
  rw [List.foldl_append, foldl_step_of_plain h.1 hne fun d hd =>
    ⟨ho.not_isQuote d hd, ho.not_isPunctuation d hd⟩, h.2, hlast]

theorem scanned_in_of_outside (he : text = before ++ (opening ++ tail)) (hs : WordEnds before)
    (h : Outside before) (ho : Opens opening tail) :
    (scanned before opening tail).In ScanEnds text := by
  refine ⟨by simp [he, scanned], hs, by simpa [scanned] using ho, cut_projectionLength ?_⟩
  intro f b _
  have hfold : (before ++ opening ++ f).foldl Scan.step {} = f.foldl Scan.step {} := by
    rw [List.foldl_append, foldl_step_opening h ho]
  simp only [ScanEnds, scanned, hfold]

theorem scanned_in (he : text = before ++ (opening ++ tail)) (hq : Unquoted text)
    (hs : WordEnds before) (ht : TopLevel before) (ho : Opens opening tail) :
    (scanned before opening tail).In KeywordAt text := by
  have hbefore : Unquoted before := fun c hc => hq c (he ▸ List.mem_append_left _ hc)
  have hin := scanned_in_of_outside he hs (outside_of_unquoted hbefore ht) ho
  refine hin.congr fun front back hf => endsAt_iff (fun c hc => hq c ?_) back
  rw [hf]
  exact List.mem_append_left _ hc

theorem passedEnd?_eq (he : text = before ++ (opening ++ tail)) :
    passedEnd? key text ⟨before.length, before.length + opening.length⟩ =
      if isPredicate before then none
      else if passes key (scanned before opening tail).items then
        some (scanned before opening tail).place
      else none := by
  have htake : text.take before.length = before := by rw [he, List.take_left]
  have hdrop : text.drop (before.length + opening.length) = tail := by
    rw [he, ← List.append_assoc, ← List.length_append, List.drop_left]
  simp only [passedEnd?, htake, hdrop]
  rfl

theorem passedEnd?_eq_some_iff (he : text = before ++ (opening ++ tail)) :
    passedEnd? key text ⟨before.length, before.length + opening.length⟩ = some place ↔
      ¬isPredicate before ∧ passes key (scanned before opening tail).items ∧
        place = (scanned before opening tail).place := by
  rw [passedEnd?_eq he]
  by_cases hp : isPredicate before
  · simp [hp]
  · by_cases hk : passes key (scanned before opening tail).items
    · simp [hp, hk, eq_comm]
    · simp [hk]

/-- The clauses that are taken for no predicate start where lists end. -/
def ClausesEndLists (text : List Char) : Prop :=
  ∀ before opening tail, text = before ++ (opening ++ tail) → WordEnds before →
    Opens opening tail → ¬isPredicate before → KeywordAt before (opening ++ tail)

theorem mem_passedEnds_iff (hq : Unquoted text) (hc : ClausesEndLists text) :
    place ∈ passedEnds key text ↔ ∃ p : Projection, p.In KeywordAt text ∧ ¬isPredicate p.before ∧
      passes key p.items ∧ place = p.place := by
  simp only [passedEnds, List.mem_filterMap]
  constructor
  · rintro ⟨clause, hclause, hend⟩
    obtain ⟨before, opening, tail, he, hs, ho, rfl⟩ := mem_clauses_iff.1 hclause
    obtain ⟨hp, hk, rfl⟩ := (passedEnd?_eq_some_iff he).1 hend
    have ht := (hc _ _ _ he hs ho hp).topLevel
    exact ⟨_, scanned_in he hq hs ht ho, hp, hk, rfl⟩
  · rintro ⟨p, hin, hp, hk, rfl⟩
    have he := hin.text_eq
    have ht := (hc _ _ _ he hin.start hin.opens hp).topLevel
    have hscan := scanned_in he hq hin.start ht hin.opens
    have hlist : (scanned p.before p.opening (p.list ++ p.rest)).list = p.list :=
      hin.cut.unique hscan.cut (by simp [scanned])
    have hitems : (scanned p.before p.opening (p.list ++ p.rest)).items = p.items := by
      rw [Projection.items, hlist, Projection.items]
    refine ⟨_, mem_clauses_iff.2 ⟨_, _, _, he, hin.start, hin.opens, rfl⟩, ?_⟩
    refine (passedEnd?_eq_some_iff he).2 ⟨hp, by rwa [hitems], ?_⟩
    rw [Projection.place, Projection.place, hitems, scanned]

theorem pairwise_passedEnds (hq : Unquoted text) (hc : ClausesEndLists text) :
    (passedEnds key text).Pairwise (· < ·) := by
  rw [passedEnds, List.pairwise_filterMap]
  refine List.Pairwise.imp_of_mem ?_ (pairwise_clausesFrom 0 false text)
  intro a b ha hb hlt x hx y hy
  obtain ⟨before, opening, tail, he, hs, ho, rfl⟩ := mem_clauses_iff.1 ha
  obtain ⟨before', opening', tail', he', hs', ho', rfl⟩ := mem_clauses_iff.1 hb
  obtain ⟨hp, -, rfl⟩ := (passedEnd?_eq_some_iff he).1 hx
  obtain ⟨hp', -, rfl⟩ := (passedEnd?_eq_some_iff he').1 hy
  have hends := hc _ _ _ he' hs' ho' hp'
  have hin := scanned_in he hq hs (hc _ _ _ he hs ho hp).topLevel ho
  have hin' := scanned_in he' hq hs' hends.topLevel ho'
  refine Nat.lt_of_le_of_lt (hin.place_le hin' hlt ?_) hin'.before_lt_place
  simpa [scanned] using hends

theorem le_length_of_mem_passedEnds (hq : Unquoted text) (hc : ClausesEndLists text)
    (h : place ∈ passedEnds key text) : place ≤ text.length := by
  obtain ⟨p, hin, -, -, rfl⟩ := (mem_passedEnds_iff hq hc).1 h
  exact hin.place_le_length

end TemporalGraph.Plan.Scope
