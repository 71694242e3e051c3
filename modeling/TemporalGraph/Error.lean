/-!
The errors of the engine, each with a stable code. Schema and consistency errors concern the whole
schema; every other error concerns one call.
-/

namespace TemporalGraph

inductive ErrorCode where
  | nestedListTarget
  | invalidName
  | unsupportedMutation
  | patternNotFound
  | overlap
  | gap
  | multipleOpen
  | invalidWindow
  | invalidInstant
  | connectionFailed
  | operationFailed
  | internal
  | unknownTypeKind
  | resolverMismatch
  | unsupportedReturnType
  deriving Repr, DecidableEq

namespace ErrorCode

def all : List ErrorCode :=
  [.nestedListTarget, .invalidName, .unsupportedMutation, .patternNotFound, .overlap, .gap,
    .multipleOpen, .invalidWindow, .invalidInstant, .connectionFailed, .operationFailed, .internal,
    .unknownTypeKind, .resolverMismatch, .unsupportedReturnType]

def text : ErrorCode → String
  | .nestedListTarget => "SCH_001"
  | .invalidName => "SCH_002"
  | .unsupportedMutation => "OP_001"
  | .patternNotFound => "RW_001"
  | .overlap => "VER_001"
  | .gap => "VER_002"
  | .multipleOpen => "VER_003"
  | .invalidWindow => "VER_004"
  | .invalidInstant => "VER_005"
  | .connectionFailed => "GRP_001"
  | .operationFailed => "GRP_002"
  | .internal => "INT_001"
  | .unknownTypeKind => "INT_002"
  | .resolverMismatch => "INT_003"
  | .unsupportedReturnType => "INT_004"

def ofText? (s : String) : Option ErrorCode := all.find? fun c => c.text == s

theorem ofText?_text (c : ErrorCode) : ofText? c.text = some c := by
  cases c <;> decide

end ErrorCode

inductive Error where
  | schema (typeName field detail : String) (code : ErrorCode)
  /-- The engine and a collaborator disagree on what was compiled. -/
  | consistency (detail : String) (code : ErrorCode)
  | unsupported (operation detail : String)
  | patternNotFound (operation pattern : String)
  | invariant (detail : String) (code : ErrorCode)
  | invalidInstant (value detail : String)
  /-- The graph store failed; `source` is the failure beneath. -/
  | store (detail : String) (code : ErrorCode) (source : Option String)
  | configuration (detail : String)
  | unsupportedProvider (provider : String)
  | file (detail : String)
  | malformed (detail : String)
  | internal (detail : String)
  deriving Repr, DecidableEq

namespace Error

def message : Error → String
  | .schema typeName field detail _ =>
    s!"Schema validation error in {typeName}.{field}: {detail}"
  | .consistency detail _ => s!"Internal consistency error: {detail}"
  | .unsupported operation detail => s!"Unsupported operation '{operation}': {detail}"
  | .patternNotFound operation pattern =>
    s!"Rewrite pattern not found for '{operation}': {pattern}"
  | .invariant detail _ => s!"Version invariant violated: {detail}"
  | .invalidInstant value detail => s!"Invalid instant '{value}': {detail}"
  | .store detail _ _ => s!"Graph store error: {detail}"
  | .configuration detail => s!"Configuration error: {detail}"
  | .unsupportedProvider provider => s!"Provider not supported: {provider}"
  | .file detail => s!"IO error: {detail}"
  | .malformed detail => s!"Serialization error: {detail}"
  | .internal detail => s!"Internal error: {detail}"

def code : Error → ErrorCode
  | .schema _ _ _ code | .consistency _ code | .invariant _ code | .store _ code _ => code
  | .unsupported .. => .unsupportedMutation
  | .patternNotFound .. => .patternNotFound
  | .invalidInstant .. => .invalidInstant
  | .configuration _ | .unsupportedProvider _ | .file _ | .malformed _ | .internal _ => .internal

def isFatal : Error → Bool
  | .schema .. | .consistency .. => true
  | _ => false

def source? : Error → Option String
  | .store _ _ source => source
  | .file detail => some detail
  | _ => none

/-- A type or field name that cannot stand in a statement; an empty `field` names the type. -/
def invalidName (typeName field : String) : Error :=
  .schema typeName field "not a valid name" .invalidName

end Error

end TemporalGraph
