import DvSpec.Encoding.Proto
import DvSpec.Encoding.Ssz
import DvSpec.Priority.Message
import Mathlib.Data.List.Sort

/-!
# Cluster-wide priority scoring

Every node reduces the collected messages to one order: the messages are sorted
by peer, their proposals grouped by topic, and a priority scores the count weight
minus its position for each node that proposed it.  Topics and priorities are
identified by the hash of their encoding.
-/

namespace DvSpec.Priority

open DvSpec.Encoding DvSpec.Library

/-- Maximum priorities a node may propose for one topic. -/
def maxPriorities : Nat := 1000

/-- Weight of one supporting node, in score units. -/
def countWeight : Nat := maxPriorities

variable (sha256 : Bytes → Bytes)

/-- The hash a topic or priority is identified by. -/
def priorityHash : AnyValue → Except PyError Bytes
  | .str text => .ok (hashProto sha256 (encodeAnyString text))
  | .unencodable => .error .attributeError

/-! ## Validation -/

/-- The loop over the priorities of one topic. -/
def validatePriorities (seenPriorities : List Bytes) : List AnyValue → Except PyError Unit
  | [] => .ok ()
  | priority :: rest => do
      let key ← priorityHash sha256 priority
      if key ∈ seenPriorities then .error (.valueError "duplicate priority")
      else validatePriorities (key :: seenPriorities) rest

/-- The loop over the topics of one message. -/
def validateTopics (seenTopics : List Bytes) : List PriorityTopicProposal → Except PyError Unit
  | [] => .ok ()
  | proposal :: rest => do
      let topicHash ← priorityHash sha256 proposal.topic
      if topicHash ∈ seenTopics then .error (.valueError "duplicate topic")
      else if maxPriorities ≤ proposal.priorities.length then
        .error (.valueError "max priority reached")
      else do
        validatePriorities sha256 [] proposal.priorities
        validateTopics (topicHash :: seenTopics) rest

/-- The loop over the messages. -/
def validateEach (duty : Duty) (seenPeers : List String) : List PriorityMsg → Except PyError Unit
  | [] => .ok ()
  | msg :: rest =>
      if msg.duty ≠ duty then .error (.valueError "mismatching duties")
      else if msg.peerId ∈ seenPeers then .error (.valueError "duplicate peer")
      else do
        validateTopics sha256 [] msg.topics
        validateEach duty (msg.peerId :: seenPeers) rest

/-- Reject a message set that cannot be scored deterministically. -/
def validateMsgs (msgs : List PriorityMsg) : Except PyError Unit :=
  match msgs with
  | [] => .error (.valueError "messages empty")
  | first :: _ => validateEach sha256 first.duty [] msgs

/-! ## Scoring -/

/-- What one peer proposed for a topic: the topic and its priorities. -/
abbrev Proposal := AnyValue × List AnyValue

/-- `sorted(msgs, key=lambda msg: msg.peer_id)`. -/
def orderedMsgs (msgs : List PriorityMsg) : List PriorityMsg :=
  msgs.insertionSort fun one two => one.peerId ≤ two.peerId

/-- Add one proposal to those of its topic. -/
def addProposal (grouped : Dict Bytes (List Proposal)) (proposal : PriorityTopicProposal) :
    Except PyError (Dict Bytes (List Proposal)) := do
  let key ← priorityHash sha256 proposal.topic
  .ok (grouped.set key ((grouped.get? key).getD [] ++ [(proposal.topic, proposal.priorities)]))

/-- Group proposals by topic, preserving peer order within each topic. -/
def proposalsByTopic (msgs : List PriorityMsg) : Except PyError (Dict Bytes (List Proposal)) :=
  msgs.foldlM (fun grouped msg => msg.topics.foldlM (addProposal sha256) grouped) Dict.empty

/-- The scores of one topic while its proposals are counted. -/
structure Tally where
  scores : Dict Bytes Int
  seenOrder : List Bytes
  values : Dict Bytes AnyValue

def Tally.empty : Tally := ⟨Dict.empty, [], Dict.empty⟩

/-- `scores[key]`. -/
def Tally.score (tally : Tally) (key : Bytes) : Int := (tally.scores.get? key).getD 0

/-- Count one priority at its position. -/
def countPriority (tally : Tally) (entry : AnyValue × Nat) : Except PyError Tally := do
  let key ← priorityHash sha256 entry.1
  let seen : Tally :=
    if tally.scores.contains key then tally
    else { tally with scores := tally.scores.set key 0, seenOrder := tally.seenOrder ++ [key] }
  .ok { seen with
    scores := seen.scores.set key (seen.score key + ((countWeight : Int) - entry.2))
    values := seen.values.set key entry.1 }

/-- Count the proposals for one topic. -/
def countProposals (proposals : List Proposal) : Except PyError Tally :=
  proposals.foldlM (fun tally proposal => proposal.2.zipIdx.foldlM (countPriority sha256) tally)
    Tally.empty

/-- The priorities in descending order of their scores, ties in the order first seen. -/
def Tally.ranked (tally : Tally) : List Bytes :=
  tally.seenOrder.insertionSort fun one two => -tally.score one ≤ -tally.score two

/-- The ranked priorities whose score exceeds the minimum. -/
def Tally.scored (tally : Tally) (minScore : Int) : List PriorityScoredResult :=
  (tally.ranked.filter fun key => minScore < tally.score key).map fun key =>
    { priority := (tally.values.get? key).getD .unencodable, score := tally.score key }

/-- The result of one topic, under its hash. -/
def topicResult (minScore : Int) (entry : Bytes × List Proposal) :
    Except PyError (Bytes × PriorityTopicResult) := do
  let tally ← countProposals sha256 entry.2
  match entry.2 with
  | [] => .error .indexError
  | first :: _ => .ok (entry.1, { topic := first.1, priorities := tally.scored minScore })

/-- Reduce per-peer priorities to one cluster-wide result. -/
def calculateResult (msgs : List PriorityMsg) (minRequired : Int) :
    Except PyError PriorityResult := do
  validateMsgs sha256 msgs
  let grouped ← proposalsByTopic sha256 (orderedMsgs msgs)
  let minScore := (minRequired - 1) * countWeight
  let results ← grouped.entries.mapM (topicResult sha256 minScore)
  let sorted := results.insertionSort fun one two => one.1 ≤ two.1
  .ok { msgs := msgs, topics := sorted.map Prod.snd }

end DvSpec.Priority
