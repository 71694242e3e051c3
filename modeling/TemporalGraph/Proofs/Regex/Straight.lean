import TemporalGraph.Proofs.Text.Search
import TemporalGraph.Regex.Match
/-!
Programs without branches. Main statement: a search with such a program tries each place of the text
once, in turn, and follows the program there to its end or to the first instruction that fails.
-/

namespace TemporalGraph.Regex

def Instruction.IsStraight : Instruction → Prop
  | .take _ | .opening _ | .closing _ => True
  | _ => False

def width : List Instruction → Nat
  | [] => 0
  | .take _ :: is => width is + 1
  | _ :: is => width is

theorem width_append (is js : List Instruction) : width (is ++ js) = width is + width js := by
  induction is with
  | nil => simp [width]
  | cons i is ih =>
    cases i with
    | take s =>
      simp only [List.cons_append, width, ih]
      omega
    | _ => simpa only [List.cons_append, width] using ih

namespace Thread

variable {text : Array Char}

def obey? (text : Array Char) (t : Thread) : Instruction → Option Thread
  | .take s =>
    if (text[t.place]?).any s.contains then
      some { t with instruction := t.instruction + 1, place := t.place + 1 }
    else none
  | .opening _ => some { t with instruction := t.instruction + 1, opened := t.place :: t.opened }
  | .closing i =>
    match t.opened with
    | start :: opened =>
      some ⟨t.instruction + 1, t.place, opened, (i, ⟨start, t.place⟩) :: t.groups⟩
    | [] => none
  | _ => none

def follow? (text : Array Char) (t : Thread) (is : List Instruction) : Option Thread :=
  is.foldlM (obey? text) t

theorem next_eq {program : Array Instruction} {i : Instruction} {t : Thread}
    (h : program[t.instruction]? = some i) (hs : i.IsStraight) :
    t.next program text = (t.obey? text i).toList := by
  cases i with
  | take s =>
    simp only [next, h, obey?]
    split <;> rfl
  | opening j => simp only [next, h, obey?, Option.toList_some]
  | closing j =>
    simp only [next, h, obey?]
    cases t.opened <;> rfl
  | _ => cases hs

theorem obey?_eq_some {i : Instruction} {t t' : Thread} (h : t.obey? text i = some t') :
    t'.instruction = t.instruction + 1 ∧ t'.place = t.place + width [i] := by
  cases i with
  | take s =>
    obtain ⟨-, h⟩ := Option.ite_none_right_eq_some.1 h
    cases h
    exact ⟨rfl, rfl⟩
  | opening j =>
    cases h
    exact ⟨rfl, rfl⟩
  | closing j =>
    cases ho : t.opened with
    | nil => simp [obey?, ho] at h
    | cons start opened =>
      simp only [obey?, ho, Option.some.injEq] at h
      subst h
      exact ⟨rfl, rfl⟩
  | _ => cases h

end Thread

/-- Straight code comes to each of its instructions at one place only, and at one further right the
further right it starts. The pairs that were tried are those of starts further left, and those in
front of instruction `n` also of this start. -/
def Behind (code : List Instruction) (start n : Nat) (tried : Tried) : Prop :=
  ∀ i place, tried.contains (i, place) →
    place < start + width (code.take i) + if i < n then 1 else 0

variable {code done todo : List Instruction} {start n : Nat} {tried : Tried} {t : Thread}

theorem behind_empty : Behind code start n {} := by
  intro i place h
  simp at h

theorem Behind.succ (h : Behind code start n tried) : Behind code (start + 1) 0 tried := by
  intro i place hc
  have hlt := h i place hc
  split at hlt
  · omega
  · omega

structure Thread.At (t : Thread) (start : Nat) (done : List Instruction) : Prop where
  instruction_eq : t.instruction = done.length
  place_eq : t.place = start + width done

namespace Thread.At

theorem not_tried (ht : t.At start done) (h : Behind (done ++ todo) start done.length tried) :
    ¬tried.contains (t.instruction, t.place) := by
  intro hc
  have hlt := h _ _ hc
  rw [ht.instruction_eq, ht.place_eq, List.take_left, if_neg (Nat.lt_irrefl _)] at hlt
  omega

theorem behind_insert (ht : t.At start done) (h : Behind (done ++ todo) start done.length tried) :
    Behind (done ++ todo) start (done.length + 1) (tried.insert (t.instruction, t.place)) := by
  intro i place hc
  rw [Std.HashSet.contains_insert, Bool.or_eq_true, beq_iff_eq] at hc
  rcases hc with he | hc
  · obtain ⟨rfl, rfl⟩ := Prod.mk.inj he
    rw [ht.instruction_eq, ht.place_eq, List.take_left, if_pos (Nat.lt_succ_self _)]
    omega
  · have hlt := h i place hc
    split at hlt
    · rwa [if_pos (by omega)]
    · omega

theorem step {text : Array Char} {i : Instruction} {t' : Thread} (ht : t.At start done)
    (h : t.obey? text i = some t') :
    t'.At start (done ++ [i]) := by
  obtain ⟨hi, hp⟩ := obey?_eq_some h
  exact ⟨by rw [hi, ht.instruction_eq, List.length_append, List.length_singleton],
    by rw [hp, ht.place_eq, width_append, Nat.add_assoc]⟩

end Thread.At

theorem firstThrough_of_new {program : Array Instruction} {text : Array Char} {t : Thread}
    {ts : List Thread} (h : ¬tried.contains (t.instruction, t.place)) (fuel : Nat) :
    firstThrough program text (fuel + 1) tried (t :: ts) =
      if t.instruction = program.size then (some t, tried)
      else firstThrough program text fuel (tried.insert (t.instruction, t.place))
        (t.next program text ++ ts) := by
  simp only [firstThrough, if_neg h]

/-- A search follows straight code. If it fails, it has tried nothing that the code comes to from
further right. -/
theorem firstThrough_straight (text : Array Char) {fuel : Nat} (hs : ∀ i ∈ todo, i.IsStraight)
    (ht : t.At start done) (hb : Behind (done ++ todo) start done.length tried)
    (hf : todo.length + 2 ≤ fuel) :
    let found := firstThrough (done ++ todo).toArray text fuel tried [t]
    found.1 = t.follow? text todo ∧
      (found.1 = none → Behind (done ++ todo) (start + 1) 0 found.2) := by
  induction todo generalizing done t tried fuel with
  | nil =>
    obtain ⟨fuel, rfl⟩ := Nat.exists_eq_add_of_le' (Nat.le_of_add_left_le hf)
    simp [firstThrough_of_new (ht.not_tried hb), ht.instruction_eq, Thread.follow?]
  | cons i todo ih =>
    obtain ⟨fuel, rfl⟩ := Nat.exists_eq_add_of_le' (Nat.le_of_add_left_le hf)
    have hget : (done ++ i :: todo).toArray[t.instruction]? = some i := by
      simp [ht.instruction_eq]
    have hsize : t.instruction ≠ (done ++ i :: todo).toArray.size := by simp [ht.instruction_eq]
    obtain ⟨hi, hs⟩ := List.forall_mem_cons.1 hs
    have hinsert := ht.behind_insert hb
    rw [firstThrough_of_new (ht.not_tried hb), if_neg hsize, Thread.next_eq hget hi,
      List.append_nil, Thread.follow?, List.foldlM_cons]
    cases ho : t.obey? text i with
    | none => exact ⟨rfl, fun _ => hinsert.succ⟩
    | some t' =>
      -- The instruction joins those that are done, and its pair those that were tried.
      rw [List.append_cons] at hinsert ⊢
      refine ih hs (ht.step ho) ?_ ?_
      · rwa [List.length_append]
      · rw [List.length_cons] at hf
        omega

theorem le_stepLimit (program : Array Instruction) (text : Array Char) :
    program.size + 2 ≤ stepLimit program text := by
  have hle : program.size + 1 ≤ (program.size + 1) * (text.size + 1) :=
    Nat.le_mul_of_pos_right _ (Nat.succ_pos _)
  unfold stepLimit
  omega

def Thread.initial (place : Nat) : Thread := ⟨0, place, [], []⟩

theorem firstMatchFrom_succ (text : Array Char) (hs : ∀ i ∈ code, i.IsStraight)
    (hb : Behind code start 0 tried) (count : Nat) :
    ∃ tried', ((Thread.initial start).follow? text code = none → Behind code (start + 1) 0 tried') ∧
      firstMatchFrom code.toArray text (count + 1) start tried =
        match (Thread.initial start).follow? text code with
        | some t => some ⟨⟨start, t.place⟩, t.groups⟩
        | none => firstMatchFrom code.toArray text count (start + 1) tried' := by
  have ht : (Thread.initial start).At start [] := ⟨rfl, rfl⟩
  obtain ⟨hfollow, hbehind⟩ := firstThrough_straight text hs ht hb (le_stepLimit code.toArray text)
  rw [List.nil_append] at hfollow hbehind
  refine ⟨_, fun h => hbehind (hfollow.trans h), ?_⟩
  rw [← hfollow, firstMatchFrom, ← Thread.initial]
  rcases firstThrough code.toArray text _ tried [Thread.initial start] with ⟨_ | t, tried'⟩
  · rfl
  · rfl

/-- If a straight code comes to its end exactly where something is recognised, the search finds the
first such place. -/
theorem firstMatchFrom_straight {α : Type} {text front rest : List Char}
    (recognise : List Char → Option (α × List Char)) (last : Nat → Thread)
    (hs : ∀ i ∈ code, i.IsStraight)
    (hf : ∀ front rest, text = front ++ rest →
      (Thread.initial front.length).follow? text.toArray code =
        (recognise rest).map fun _ => last front.length)
    (he : text = front ++ rest) (hb : Behind code front.length 0 tried) :
    firstMatchFrom code.toArray text.toArray (rest.length + 1) front.length tried =
      (Text.findFirst? recognise rest).map fun f =>
        let start := front.length + f.before.length
        ⟨⟨start, (last start).place⟩, (last start).groups⟩ := by
  induction rest generalizing front tried with
  | nil =>
    obtain ⟨tried', -, hstep⟩ := firstMatchFrom_succ text.toArray hs hb 0
    rw [List.length_nil, hstep, hf front [] he]
    cases hr : recognise [] with
    | some found => simp [Text.findFirst?, hr]
    | none => simp [Text.findFirst?, hr, firstMatchFrom]
  | cons c rest ih =>
    obtain ⟨tried', hb', hstep⟩ := firstMatchFrom_succ text.toArray hs hb (rest.length + 1)
    have hhere := hf front (c :: rest) he
    rw [List.length_cons, hstep, hhere]
    cases hr : recognise (c :: rest) with
    | some found => simp [Text.findFirst?, hr]
    | none =>
      rw [hr] at hhere
      have hlength : (front ++ [c]).length = front.length + 1 := List.length_append
      have hnext := ih (he.trans (List.append_cons _ _ _)) (hlength ▸ hb' hhere)
      rw [hlength] at hnext
      simp only [Option.map_none, hnext, Text.findFirst?, hr, Option.map_map, Function.comp_def,
        List.length_cons, Nat.add_assoc, Nat.add_comm 1]

end TemporalGraph.Regex
