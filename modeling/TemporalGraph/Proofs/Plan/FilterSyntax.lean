import TemporalGraph.Text.Blank
/-!
The filters of a query, and how they are read: `NOT` binds before `AND`, `AND` before `XOR`, and
`XOR` before `OR`, each from left to right. Main statement: reading the tokens of a filter gives the
filter back, so that a text is read in one way only.
-/

namespace TemporalGraph.Plan

inductive Connective where
  | and
  | xor
  | or
  deriving DecidableEq

namespace Connective

def level : Connective → Nat
  | and => 2
  | xor => 1
  | or => 0

def eval : Connective → Bool → Bool → Bool
  | and => Bool.and
  | xor => Bool.xor
  | or => Bool.or

theorem level_le (o : Connective) : o.level ≤ 2 := by cases o <;> decide

end Connective

inductive Filter where
  | cond (text : List Char)
  | group (e : Filter)
  | not (e : Filter)
  | binary (o : Connective) (a b : Filter)
  deriving DecidableEq

inductive Token where
  | cond (text : List Char)
  | opening
  | closing
  | not
  | connective (o : Connective)
  deriving DecidableEq

namespace Filter

def eval (σ : List Char → Bool) : Filter → Bool
  | cond text => σ text
  | group e => e.eval σ
  | not e => !e.eval σ
  | binary o a b => o.eval (a.eval σ) (b.eval σ)

def tokens : Filter → List Token
  | cond text => [.cond text]
  | group e => .opening :: e.tokens ++ [.closing]
  | not e => .not :: e.tokens
  | binary o a b => a.tokens ++ .connective o :: b.tokens

def level : Filter → Nat
  | binary o _ _ => o.level
  | _ => 3

/-- Every operand binds tighter than its operator, or equally on the left. -/
def Respects : Filter → Prop
  | cond _ => True
  | group e => e.Respects
  | not e => e.Respects ∧ e.level = 3
  | binary o a b => a.Respects ∧ b.Respects ∧ o.level ≤ a.level ∧ o.level < b.level

end Filter

inductive Frame where
  | bracket
  | not
  | left (a : Filter) (o : Connective)

inductive Reading where
  | operand (fs : List Frame)
  | operator (fs : List Frame) (e : Filter)

/-- Everything that binds its operand at `k` or tighter takes it. -/
def reduce (k : Nat) : List Frame → Filter → List Frame × Filter
  | .not :: fs, e => reduce k fs (.not e)
  | .left a o :: fs, e =>
    if k ≤ o.level then reduce k fs (.binary o a e) else (.left a o :: fs, e)
  | fs, e => (fs, e)

namespace Reading

def step : Reading → Token → Option Reading
  | operand fs, .cond text => some (operator fs (.cond text))
  | operand fs, .opening => some (operand (.bracket :: fs))
  | operand fs, .not => some (operand (.not :: fs))
  | operator fs e, .connective o =>
    let (fs, e) := reduce o.level fs e
    some (operand (.left e o :: fs))
  | operator fs e, .closing =>
    match reduce 0 fs e with
    | (.bracket :: fs, e) => some (operator fs (.group e))
    | _ => none
  | _, _ => none

def run : Reading → List Token → Option Reading
  | r, [] => some r
  | r, t :: ts => (r.step t).bind fun r => run r ts

def finish? : Reading → Option Filter
  | operator fs e =>
    match reduce 0 fs e with
    | ([], e) => some e
    | _ => none
  | operand _ => none

theorem run_append (r : Reading) (ts us : List Token) :
    r.run (ts ++ us) = (r.run ts).bind fun r => r.run us := by
  induction ts generalizing r with
  | nil => rfl
  | cons t ts ih =>
    cases h : r.step t with
    | none => simp [run, h]
    | some r' => simp [run, h, ih]

end Reading

def readFilter? (ts : List Token) : Option Filter :=
  ((Reading.operand []).run ts).bind Reading.finish?

/-- What is left open when a filter has been read: the operands on its right wait for more. -/
def unwind : List Frame → Filter → List Frame × Filter
  | fs, .not e => unwind (.not :: fs) e
  | fs, .binary o a b => unwind (.left a o :: fs) b
  | fs, e => (fs, e)

def Fits (level : Nat) : List Frame → Prop
  | .not :: _ => level = 3
  | .left _ o :: _ => o.level < level
  | _ => True

theorem reduce_of_fits {k : Nat} {fs : List Frame} (h : Fits k fs) (hk : k ≤ 2) (e : Filter) :
    reduce k fs e = (fs, e) := by
  cases fs with
  | nil => rfl
  | cons f fs =>
    cases f with
    | bracket => rfl
    | not =>
      simp only [Fits] at h
      omega
    | left a o =>
      simp only [Fits] at h
      simp [reduce, Nat.not_le.2 h]

theorem reduce_unwind {k : Nat} {e : Filter} (he : e.Respects) (hk : k ≤ e.level)
    (fs : List Frame) :
    reduce k (unwind fs e).1 (unwind fs e).2 = reduce k fs e := by
  induction e generalizing fs with
  | cond text => rfl
  | group e ih => rfl
  | not e ih =>
    obtain ⟨he, hl⟩ := he
    rw [unwind, ih he (by rw [hl]; exact hk)]
    rfl
  | binary o a b iha ihb =>
    obtain ⟨-, hb, -, hlt⟩ := he
    have hk : k ≤ o.level := hk
    rw [unwind, ihb hb (by omega), reduce, if_pos hk]

theorem Fits.mono {k l : Nat} {fs : List Frame} (h : Fits k fs) (hkl : k ≤ l) (hl : l ≤ 3) :
    Fits l fs := by
  cases fs with
  | nil => trivial
  | cons f fs =>
    cases f with
    | bracket => trivial
    | not =>
      simp only [Fits] at h ⊢
      omega
    | left a o =>
      simp only [Fits] at h ⊢
      omega

theorem Filter.level_le (e : Filter) : e.level ≤ 3 := by
  cases e with
  | binary o a b => exact Nat.le_succ_of_le o.level_le
  | _ => exact Nat.le_refl 3

theorem run_tokens {e : Filter} (he : e.Respects) {fs : List Frame} (hf : Fits e.level fs) :
    (Reading.operand fs).run e.tokens = some (.operator (unwind fs e).1 (unwind fs e).2) := by
  induction e generalizing fs with
  | cond text => rfl
  | group e ih =>
    have he : e.Respects := he
    have hbody := ih he (show Fits e.level (.bracket :: fs) from trivial)
    have hclose := reduce_unwind he (Nat.zero_le _) (.bracket :: fs)
    simp only [Filter.tokens, List.cons_append, Reading.run, Reading.step, Option.bind_some,
      Reading.run_append, hbody, hclose]
    rfl
  | not e ih =>
    obtain ⟨he, hl⟩ := he
    have hbody := ih he (show Fits e.level (.not :: fs) from hl)
    simpa only [Filter.tokens, Reading.run, Reading.step, Option.bind_some, unwind] using hbody
  | binary o a b iha ihb =>
    obtain ⟨ha, hb, hle, hlt⟩ := he
    have hfo : Fits o.level fs := hf
    have hleft := iha ha (hfo.mono hle a.level_le)
    have hright := ihb hb (show Fits b.level (.left a o :: fs) from hlt)
    -- The connective closes what was left open in its left operand, and nothing in front of it.
    have hreduce : reduce o.level (unwind fs a).1 (unwind fs a).2 = (fs, a) := by
      rw [reduce_unwind ha hle, reduce_of_fits hfo o.level_le]
    simp only [Filter.tokens, Reading.run_append, hleft, Option.bind_some, Reading.run,
      Reading.step, hreduce, hright]
    rfl

theorem readFilter?_tokens {e : Filter} (he : e.Respects) : readFilter? e.tokens = some e := by
  have hrun := run_tokens he (show Fits e.level [] from trivial)
  have hreduce := reduce_unwind he (Nat.zero_le _) []
  simp only [readFilter?, hrun, Option.bind_some, Reading.finish?, hreduce]
  rfl

/- Tokens as text. -/

namespace Token

def text : Token → List Char
  | cond text => text
  | opening => ['(']
  | closing => [')']
  | not => "NOT".toList
  | connective .and => "AND".toList
  | connective .xor => "XOR".toList
  | connective .or => "OR".toList

def isBracket (t : Token) : Bool := t = opening || t = closing

end Token

inductive Spells : List Token → List Char → Prop where
  | nil : Spells [] []
  | cons {t : Token} {ts : List Token} {gap text : List Char} (hb : ∀ c ∈ gap, Text.isBlank c)
      (hs : gap ≠ [] ∨ t.isBracket ∨ ∀ u ∈ ts.head?, u.isBracket) (h : Spells ts text) :
      Spells (t :: ts) (t.text ++ gap ++ text)

end TemporalGraph.Plan
