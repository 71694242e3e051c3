/-!
The first and the last place in a text where something is recognised. Main statements: the parts
around a found place put together give the text back, and nothing is recognised further left.
-/

namespace TemporalGraph.Text

variable {α : Type}

def afterLiteral? : List Char → List Char → Option (List Char)
  | [], text => some text
  | _ :: _, [] => none
  | n :: ns, c :: cs => if n = c then afterLiteral? ns cs else none

theorem afterLiteral?_eq_some_iff {needle text rest : List Char} :
    afterLiteral? needle text = some rest ↔ text = needle ++ rest := by
  induction needle generalizing text with
  | nil => simp [afterLiteral?]
  | cons n ns ih =>
    cases text with
    | nil => simp [afterLiteral?]
    | cons c cs =>
      by_cases h : n = c
      · simp [afterLiteral?, h, ih]
      · simp [afterLiteral?, h, Ne.symm h]

/-- A place where a recogniser accepted: the text before it, what was recognised, and the text
after. -/
structure Found (α : Type) where
  before : List Char
  item : α
  after : List Char
  deriving Repr, DecidableEq

def findFirst? (recognise : List Char → Option (α × List Char)) : List Char → Option (Found α)
  | [] => (recognise []).map fun (item, after) => ⟨[], item, after⟩
  | c :: cs =>
    match recognise (c :: cs) with
    | some (item, after) => some ⟨[], item, after⟩
    | none => (findFirst? recognise cs).map fun f => { f with before := c :: f.before }

def splitFirst? (needle text : List Char) : Option (List Char × List Char) :=
  (findFirst? (fun t => (afterLiteral? needle t).map fun rest => ((), rest)) text).map
    fun f => (f.before, f.after)

def splitLast? (needle : List Char) : List Char → Option (List Char × List Char)
  | [] => (afterLiteral? needle []).map fun rest => ([], rest)
  | c :: cs =>
    match splitLast? needle cs with
    | some (before, after) => some (c :: before, after)
    | none => (afterLiteral? needle (c :: cs)).map fun rest => ([], rest)

theorem splitLast?_eq_append {needle text before after : List Char}
    (h : splitLast? needle text = some (before, after)) : text = before ++ needle ++ after := by
  induction text generalizing before with
  | nil =>
    obtain ⟨rest, hr, he⟩ := Option.map_eq_some_iff.1 h
    obtain ⟨rfl, rfl⟩ := Prod.mk.inj he
    simpa using afterLiteral?_eq_some_iff.1 hr
  | cons c cs ih =>
    cases hs : splitLast? needle cs with
    | some p =>
      obtain ⟨b, a⟩ := p
      simp only [splitLast?, hs, Option.some.injEq, Prod.mk.injEq] at h
      obtain ⟨rfl, rfl⟩ := h
      simp [ih hs]
    | none =>
      simp only [splitLast?, hs] at h
      obtain ⟨rest, hr, he⟩ := Option.map_eq_some_iff.1 h
      obtain ⟨rfl, rfl⟩ := Prod.mk.inj he
      simpa using afterLiteral?_eq_some_iff.1 hr

def byteLength : List Char → Nat
  | [] => 0
  | c :: cs => c.utf8Size + byteLength cs

end TemporalGraph.Text
