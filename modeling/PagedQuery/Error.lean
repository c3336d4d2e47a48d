import PagedQuery.Schema
import PagedQuery.Field

/-!
# Errors

An `Error` is a cause. Its kind and the wording of its message are functions of the cause, so that
no other module spells out a message. `Failure` adds the outcomes that are no errors of a query, and
after which a computation does not go on.
-/

namespace PagedQuery

inductive ErrorKind where
  | io
  | serialization
  | config
  | validation
  | execution
  deriving DecidableEq, Repr

inductive RunFault where
  | truncated
  | badMagic
  | unsupportedVersion (version : Nat)
  | batchTooLarge
  | batchExceedsPage (count capacity : Nat)
  | invalidText
  | unknownTag (tag : Nat)
  deriving DecidableEq, Repr

inductive PageRole where
  | sortInput
  | mergeOutput
  | projectionOutput
  | distinctOutput
  | aggregateSpool
  | aggregateOutput
  | joinOutput
  deriving DecidableEq, Repr

/-- The causes of errors. -/
inductive Error where
  | io
  | runFile (path : String) (fault : RunFault)
  | rowTooWide (fields : Nat)
  | stringTooLong
  | json
  | zeroPageSize
  | tooFewBuffers (given : Nat)
  | zeroRowSize
  | rowExceedsPage (rowSize pageSize : Nat)
  | emptyProjection
  | projectionOutOfRange (position : Nat) (schema : Schema)
  | emptyAggregate
  | aggregateOutOfRange (position : Nat) (schema : Schema)
  | notNumeric (op : AggregateOp) (column : Attribute)
  | sortKeyOutOfRange (position : Nat) (columns : Nat)
  | noJoinCondition
  | joinAttributeNotFound (name : String) (schema : Schema)
  | notOpen
  | integerOverflow (a b : Int64)
  | cannotAdd (a b : Field)
  | cannotAverage (field : Field)
  | rowsExceedPage (rows capacity : Nat)
  | blockOverflow (maxPages : Nat)
  | sortBlockOverflow
  | pageOverflow (role : PageRole)
  | noWorkingDirectory
  | nothingToMerge
  | fanInExceeded (runs buffers : Nat)
  | notSingleRun (runs : Nat)
  | columnVanished
  | rowTooShort
  | missingPlainColumn
  | missingAggregateValue
  | noBandStart
  | noBandRow
  /-- An error as a source of rows outside this library words it. -/
  | reported (kind : ErrorKind) (message : String)
  deriving DecidableEq, Repr

/-- What is said of a broken run file, behind its name. -/
def RunFault.message : RunFault → String
  | .truncated => "truncated"
  | .badMagic => "bad magic"
  | .unsupportedVersion version => "unsupported version " ++ toString version
  | .batchTooLarge => "batch too large"
  | .batchExceedsPage count capacity =>
    "batch of " ++ toString count ++ " exceeds page of " ++ toString capacity
  | .invalidText => "invalid utf-8 string"
  | .unknownTag tag => "unknown field tag " ++ toString tag

def PageRole.text : PageRole → String
  | .sortInput => "Sort page"
  | .mergeOutput => "Merge output page"
  | .projectionOutput => "Projection output page"
  | .distinctOutput => "Distinct output page"
  | .aggregateSpool => "Aggregate spool page"
  | .aggregateOutput => "Aggregate output page"
  | .joinOutput => "Join output page"

namespace Error

def kind : Error → ErrorKind
  | .io => .io
  | .runFile _ _ | .rowTooWide _ | .stringTooLong | .json => .serialization
  | .zeroPageSize | .tooFewBuffers _ | .zeroRowSize | .rowExceedsPage _ _ => .config
  | .emptyProjection | .projectionOutOfRange _ _ | .emptyAggregate | .aggregateOutOfRange _ _
  | .notNumeric _ _ | .sortKeyOutOfRange _ _ | .noJoinCondition
  | .joinAttributeNotFound _ _ => .validation
  | .reported kind _ => kind
  | _ => .execution

def message : Error → String
  | .io => ""
  | .runFile path fault => "Run file " ++ path ++ ": " ++ fault.message
  | .rowTooWide fields => "Tuple with " ++ toString fields ++ " fields is too wide"
  | .stringTooLong => "String field too long"
  | .json => "JSON Error"
  | .zeroPageSize => "Page size must be greater than zero"
  | .tooFewBuffers given => "Minimum 3 buffers are required, got " ++ toString given
  | .zeroRowSize => "Tuple size must be greater than zero"
  | .rowExceedsPage rowSize pageSize =>
    "Tuple size " ++ toString rowSize ++ " exceeds page size " ++ toString pageSize
  | .emptyProjection => "Projection needs at least one column"
  | .projectionOutOfRange position schema =>
    "Projected column " ++ toString position ++ " out of range for " ++ schema.text
  | .emptyAggregate => "Aggregate needs at least one output column"
  | .aggregateOutOfRange position schema =>
    "Aggregate column " ++ toString position ++ " out of range for " ++ schema.text
  | .notNumeric op column =>
    op.text ++ " is not defined over " ++ column.name ++ " of type " ++ column.type.text
  | .sortKeyOutOfRange position columns =>
    "Sort key position " ++ toString position ++ " out of range for schema of "
      ++ toString columns ++ " attributes"
  | .noJoinCondition => "Sort-merge join needs at least one equality condition"
  | .joinAttributeNotFound name schema =>
    "Join attribute " ++ name ++ " not found in " ++ schema.text
  | .notOpen => "Operator has not been opened"
  | .integerOverflow a b =>
    "Integer overflow adding " ++ (Field.int a).text ++ " and " ++ (Field.int b).text
  | .cannotAdd a b => "Cannot add " ++ a.text ++ " and " ++ b.text
  | .cannotAverage field => "Cannot average " ++ field.text
  | .rowsExceedPage rows capacity =>
    toString rows ++ " tuples do not fit in a page of " ++ toString capacity
  | .blockOverflow maxPages => "Block overflow: more than " ++ toString maxPages ++ " pages"
  | .sortBlockOverflow => "Sort block overflow"
  | .pageOverflow role => role.text ++ " overflow"
  | .noWorkingDirectory => "Sort working directory is not set up"
  | .nothingToMerge => "There are no runs to merge"
  | .fanInExceeded runs buffers =>
    "Merging " ++ toString runs ++ " runs exceeds the available buffers (B-1 = "
      ++ toString buffers ++ ")"
  | .notSingleRun runs => "Expected a single sorted run, found " ++ toString runs
  | .columnVanished => "Aggregate column vanished from child schema"
  | .rowTooShort => "Tuple shorter than child schema"
  | .missingPlainColumn => "Missing plain column for aggregate row"
  | .missingAggregateValue => "Missing aggregate value"
  | .noBandStart => "No right tuple to start a band"
  | .noBandRow => "Band scan without a left tuple"
  | .reported _ message => message

/-- The message with the kind in front. Errors of files and of serialisation stand for themselves.
-/
def text (e : Error) : String :=
  match e.kind with
  | .validation => "Validation Error: " ++ e.message
  | .execution => "Execution Error: " ++ e.message
  | .config => "Configuration Error: " ++ e.message
  | .io | .serialization => e.message

def sameReport (a b : Error) : Bool := a.kind == b.kind && a.message == b.message

end Error

/-- How a call can fail: with an error that its caller may handle, or for good. -/
inductive Failure where
  | error (e : Error)
  /-- A position lies beyond the end of a row or a schema, or a number beyond the range of a word. -/
  | outOfRange
  /-- More room was asked for than one piece of memory can have. -/
  | outOfMemory
  deriving DecidableEq, Repr

/-- A result whose error is one that a caller may handle. -/
def Failure.ofExcept {α : Type} : Except Error α → Except Failure α
  | .ok a => .ok a
  | .error e => .error (.error e)

end PagedQuery
