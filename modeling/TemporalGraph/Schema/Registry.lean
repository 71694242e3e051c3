import TemporalGraph.Schema.Definition
/-!
Registries of type definitions. Each definition carries the number of the addition that brought it
in, so that two registries, one derived from the other, tell which definitions they share and which
were written anew. Main statement: what an addition does to a look-up.
-/

namespace TemporalGraph.Schema

structure Entry where
  definition : TypeDefinition
  revision : Nat
  deriving DecidableEq

/-- Definitions under their names. Additions are numbered in ascending order. -/
structure Registry where
  table : Dictionary Entry
  additions : Nat
  named : ∀ e ∈ table.entries, e.2.definition.name = e.1
  numbered : ∀ e ∈ table.entries, e.2.revision < additions

namespace Registry

def empty : Registry := ⟨.empty, 0, by simp [Dictionary.empty], by simp [Dictionary.empty]⟩

def types (r : Registry) : List TypeDefinition := r.table.values.map Entry.definition

def get? (r : Registry) (name : String) : Option TypeDefinition :=
  (r.table.get? name).map Entry.definition

def contains (r : Registry) (name : String) : Bool := (r.get? name).isSome

def size (r : Registry) : Nat := r.table.size

def isEmpty (r : Registry) : Bool := r.table.isEmpty

def add (r : Registry) (t : TypeDefinition) : Registry where
  table := r.table.insert t.name ⟨t, r.additions⟩
  additions := r.additions + 1
  named e he := by
    rcases Dictionary.mem_place he with rfl | he
    · rfl
    · exact r.named e he
  numbered e he := by
    rcases Dictionary.mem_place he with rfl | he
    · exact Nat.lt_succ_self _
    · exact Nat.lt_succ_of_lt (r.numbered e he)

def remove (r : Registry) (name : String) : Registry where
  table := r.table.erase name
  additions := r.additions
  named e he := r.named e (List.mem_filter.1 he).1
  numbered e he := r.numbered e (List.mem_filter.1 he).1

def addAll (r : Registry) (types : List TypeDefinition) : Registry := types.foldl add r

def ofList (types : List TypeDefinition) : Registry := empty.addAll types

/-- Two registries with the same definitions are equal as schemas, whatever they share. -/
def sameTypes (a b : Registry) : Bool := decide (a.types = b.types)

/-- The names under which both registries hold the same addition. -/
def shared (a b : Registry) : List String :=
  (a.table.entries.filter fun e => (b.table.get? e.1).any fun f => f.revision == e.2.revision).map
    Prod.fst

def objectTypes (r : Registry) : List TypeDefinition := r.types.filter fun t => t.kind = .object

def namesWithDirective (r : Registry) (directive : String) : List String :=
  (r.objectTypes.filter fun t => t.hasDirective directive).map TypeDefinition.name

/-- What a reference stands for. A declaration goes before a built-in scalar of the same name. -/
inductive Resolved where
  | declared (t : TypeDefinition)
  | builtin
  | undeclared

def resolve (r : Registry) (t : TypeRef) : Resolved :=
  match r.get? t.baseName with
  | some d => .declared d
  | none => if builtinScalars.contains t.baseName then .builtin else .undeclared

theorem get?_add (r : Registry) (t : TypeDefinition) (name : String) :
    (r.add t).get? name = if name = t.name then some t else r.get? name := by
  unfold get? add
  simp only [Dictionary.get?_insert]
  split <;> rfl

end Registry

end TemporalGraph.Schema
