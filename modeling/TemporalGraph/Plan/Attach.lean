import TemporalGraph.Plan.Fragment
import TemporalGraph.Regex.Basic
import TemporalGraph.Statement
/-!
Attaching associations to resources. The match of the target node is redirected to the labels of
its resource; with a batch of ids, its equality becomes membership in the batch.

Left out: a target whose patterns pass the size limit of `Regex.Expr.ofText` has no plan.
-/

namespace TemporalGraph.Plan.Attach

def targetPattern (target : String) : String :=
  "MATCH \\([^ :)]+:(" ++ Regex.quote target
    ++ ") \\\x7b [^ :)\x7d]+: \\$[^ \x7d)]+ \\\x7d\\)"

def resourcePattern (labels : String) : String :=
  "MATCH \\(([^ :)]+):" ++ Regex.quote labels
    ++ "( \\\x7b [^ :)\x7d]+: \\$[^ \x7d)]+ \\\x7d\\))"

def least? : List String → Option String
  | [] => none
  | a :: as =>
    match least? as with
    | some b => some (if b < a then b else a)
    | none => some a

/-- The parameter with the ids to attach: the least one whose name starts with `to`. -/
def batchParam? (params : Params) : Option String :=
  least? (params.keys.filter fun key => (Text.afterLiteral? ['t', 'o'] key.toList).isSome)

def apply (target : String) (call : Call) (s : Statement) (c : Config) : Outcome Statement := do
  let labels := c.labels.resourceLabels target
  match Text.findFirst? (NodeClause.read? target.toList) s.query.toList with
  | none =>
    unmatched c call.field (targetPattern target)
    return s
  | some found =>
    let redirected := found.before ++ found.item.render labels.toList ++ found.after
    match batchParam? s.params with
    | none => return { s with query := String.ofList redirected }
    | some batch =>
      match Text.findFirst? (NodeClause.read? labels.toList) redirected with
      | none =>
        unmatched c call.field (resourcePattern labels)
        return { s with query := String.ofList redirected }
      | some found =>
        let query := found.before ++ found.item.renderBatch labels.toList batch ++ found.after
        return { s with query := String.ofList query }

end TemporalGraph.Plan.Attach
