import DvSpec.Types.Duty

/-!
# Priority messages and results

Each node proposes an ordered list of priorities for some topics of a duty; the
result orders them for the whole cluster.  A topic or priority may be any value,
but only strings have an encoding.
-/

namespace DvSpec.Priority

/-- A value of a field of any type: a string, or a value that cannot be encoded. -/
inductive AnyValue where
  | str (text : String)
  | unencodable
  deriving DecidableEq, Repr

/-- A proposed priority list for a single topic. -/
structure PriorityTopicProposal where
  topic : AnyValue
  priorities : List AnyValue
  deriving DecidableEq, Repr

/-- A priority message exchanged between peers. -/
structure PriorityMsg where
  duty : Duty
  topics : List PriorityTopicProposal
  peerId : String
  signature : Bytes
  deriving DecidableEq, Repr

/-- A single priority with its calculated score. -/
structure PriorityScoredResult where
  priority : AnyValue
  score : Int
  deriving DecidableEq, Repr

/-- Cluster-wide priority results for a single topic. -/
structure PriorityTopicResult where
  topic : AnyValue
  priorities : List PriorityScoredResult
  deriving DecidableEq, Repr

/-- Complete priority protocol result. -/
structure PriorityResult where
  msgs : List PriorityMsg
  topics : List PriorityTopicResult
  deriving DecidableEq, Repr

end DvSpec.Priority
