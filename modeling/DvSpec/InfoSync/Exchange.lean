import DvSpec.InfoSync.Results
import DvSpec.Priority.Ranking

/-!
# InfoSync exchanges

In an exchange every node proposes what it supports, most preferred first, and the
calculated priorities become the result of the slot.  What a result selects later is
supported by the required number of nodes, the full proposal type is always among it,
and a consensus protocol that all nodes have configured is the one selected.
-/

namespace DvSpec.InfoSync

open DvSpec.Priority

/-! ## Local priorities -/

/-- Topic carrying supported versions. -/
def topicVersion : String := "version"

/-- Topic carrying supported protocol IDs. -/
def topicProtocol : String := "protocol"

/-- Topic carrying supported block proposal types. -/
def topicProposal : String := "proposal"

/-- Prefix that distinguishes consensus protocol IDs from other protocol IDs. -/
def consensusProtocolIdPrefix : String := "/charon/consensus/"

/-- The fallback. -/
def qbftV2ProtocolId : String := "/charon/consensus/qbft/2.0.0"

/-- A block proposal strategy a node is willing to use. -/
inductive ProposalType where
  | full
  | builder
  | synthetic
  deriving DecidableEq

/-- The string on the wire. -/
def ProposalType.value : ProposalType → String
  | .full => "full"
  | .builder => "builder"
  | .synthetic => "synthetic"

/-- The duty an exchange runs under. -/
def infosyncDuty (slot : Nat) : Duty := ⟨slot, .infoSync⟩

/-- Order a node's supported proposal types by preference. -/
def localProposalTypes (builder synthetic : Bool) : List ProposalType :=
  (if builder then [.builder] else []) ++ (if synthetic then [.synthetic] else []) ++ [.full]

/-- `text.startswith(start)`. -/
def startsWith (text start : String) : Bool := start.toList.isPrefixOf text.toList

/-- The prefix of every version of a consensus protocol. -/
def namedPrefix (name : String) : String := consensusProtocolIdPrefix ++ name ++ "/"

/-- Move every version of one consensus protocol to the front of the list. -/
def prioritizeProtocolsByName (name : String) (protocols : List String) : List String :=
  protocols.filter (fun protocol => startsWith protocol (namedPrefix name)) ++
    protocols.filter fun protocol => !startsWith protocol (namedPrefix name)

/-- Order a node's protocol IDs before proposing them: the preference of the lock first, then
the node's own configuration. -/
def localProtocolPriorities (protocols : List String)
    (lockPreferredProtocol configuredProtocol : String) : List String :=
  let ordered :=
    if lockPreferredProtocol = "" then protocols
    else prioritizeProtocolsByName lockPreferredProtocol protocols
  if configuredProtocol = "" then ordered
  else prioritizeProtocolsByName configuredProtocol ordered

/-- Select the cluster-wide consensus protocol from an agreed protocol list. -/
def mostPreferredConsensusProtocol : List String → String
  | [] => qbftV2ProtocolId
  | protocolId :: rest =>
      if startsWith protocolId consensusProtocolIdPrefix then protocolId
      else mostPreferredConsensusProtocol rest

theorem value_inj {one two : ProposalType} (same : one.value = two.value) : one = two := by
  revert same
  cases one <;> cases two <;> decide

/-- The full type stands at one of the first three positions. -/
theorem exists_full_position (builder synthetic : Bool) :
    ∃ position ≤ 2, (localProposalTypes builder synthetic)[position]? = some .full := by
  cases builder <;> cases synthetic
  · exact ⟨0, by decide, rfl⟩
  · exact ⟨1, by decide, rfl⟩
  · exact ⟨1, by decide, rfl⟩
  · exact ⟨2, by decide, rfl⟩

theorem perm_prioritizeProtocolsByName (name : String) (protocols : List String) :
    (prioritizeProtocolsByName name protocols).Perm protocols :=
  List.filter_append_perm _ _

/-- Ordering the protocols neither adds nor drops one. -/
theorem perm_localProtocolPriorities (protocols : List String) (lockPreferred configured : String) :
    (localProtocolPriorities protocols lockPreferred configured).Perm protocols := by
  have locked : (if lockPreferred = "" then protocols
      else prioritizeProtocolsByName lockPreferred protocols).Perm protocols := by
    split
    · exact List.Perm.refl _
    · exact perm_prioritizeProtocolsByName _ _
  unfold localProtocolPriorities
  dsimp only
  split
  · exact locked
  · exact (perm_prioritizeProtocolsByName _ _).trans locked

theorem startsWith_trans {text long short : String} (outer : startsWith text long = true)
    (inner : startsWith long short = true) : startsWith text short = true := by
  unfold startsWith at *
  rw [List.isPrefixOf_iff_prefix] at *
  exact inner.trans outer

theorem startsWith_namedPrefix (name : String) :
    startsWith (namedPrefix name) consensusProtocolIdPrefix = true := by
  rw [startsWith, List.isPrefixOf_iff_prefix, namedPrefix, String.toList_append,
    String.toList_append, List.append_assoc]
  exact List.prefix_append _ _

/-- What is selected is listed, or it is the fallback. -/
theorem mostPreferred_cases (protocols : List String) :
    mostPreferredConsensusProtocol protocols ∈ protocols ∨
      mostPreferredConsensusProtocol protocols = qbftV2ProtocolId := by
  induction protocols with
  | nil => exact Or.inr rfl
  | cons protocolId rest ih =>
      rw [mostPreferredConsensusProtocol]
      split
      · exact Or.inl List.mem_cons_self
      · exact ih.imp_left (List.mem_cons_of_mem _)

/-- The settings of a node. -/
structure Settings where
  protocols : List String
  lockPreferredProtocol : String
  configuredProtocol : String
  builder : Bool
  synthetic : Bool

namespace Settings

/-- The proposal types a node proposes. -/
def proposalTypes (settings : Settings) : List ProposalType :=
  localProposalTypes settings.builder settings.synthetic

/-- The protocols a node proposes. -/
def offeredProtocols (settings : Settings) : List String :=
  localProtocolPriorities settings.protocols settings.lockPreferredProtocol
    settings.configuredProtocol

/-- A node has configured a consensus protocol and supports one version of it. -/
structure Prefers (settings : Settings) (name preferred : String) : Prop where
  configured : settings.configuredProtocol = name
  name_ne : name ≠ ""
  named : startsWith preferred (namedPrefix name) = true
  supported : preferred ∈ settings.protocols
  only : ∀ protocol ∈ settings.protocols, startsWith protocol (namedPrefix name) = true →
    protocol = preferred

/-- The configured protocol comes first, whatever the lock prefers. -/
theorem Prefers.head?_offeredProtocols {settings : Settings} {name preferred : String}
    (prefers : settings.Prefers name preferred) :
    settings.offeredProtocols.head? = some preferred := by
  obtain ⟨rfl, name_ne, named, supported, only⟩ := prefers
  unfold offeredProtocols localProtocolPriorities
  dsimp only
  rw [if_neg name_ne]
  generalize ordering : (if settings.lockPreferredProtocol = "" then settings.protocols
    else prioritizeProtocolsByName settings.lockPreferredProtocol settings.protocols) = ordered
  have perm : ordered.Perm settings.protocols := by
    rw [← ordering]
    split
    · exact List.Perm.refl _
    · exact perm_prioritizeProtocolsByName _ _
  have bumped : preferred ∈ ordered.filter fun protocol =>
      startsWith protocol (namedPrefix settings.configuredProtocol) :=
    List.mem_filter.mpr ⟨perm.mem_iff.mpr supported, named⟩
  rw [prioritizeProtocolsByName, List.head?_append_of_ne_nil _ (List.ne_nil_of_mem bumped)]
  cases front : ordered.filter fun protocol =>
      startsWith protocol (namedPrefix settings.configuredProtocol) with
  | nil =>
      rw [front] at bumped
      cases bumped
  | cons first rest =>
      have member : first ∈ ordered.filter fun protocol =>
          startsWith protocol (namedPrefix settings.configuredProtocol) :=
        front ▸ List.mem_cons_self
      obtain ⟨known, same⟩ := List.mem_filter.mp member
      rw [List.head?_cons, only first (perm.mem_iff.mp known) same]

theorem Prefers.consensus {settings : Settings} {name preferred : String}
    (prefers : settings.Prefers name preferred) :
    startsWith preferred consensusProtocolIdPrefix = true :=
  startsWith_trans prefers.named (startsWith_namedPrefix name)

end Settings

/-- A list with a consensus protocol in front selects it. -/
theorem mostPreferred_of_head? {protocols : List String} {preferred : String}
    (front : protocols.head? = some preferred)
    (consensus : startsWith preferred consensusProtocolIdPrefix = true) :
    mostPreferredConsensusProtocol protocols = preferred := by
  cases protocols with
  | nil => cases front
  | cons first rest =>
      cases front
      rw [mostPreferredConsensusProtocol, if_pos consensus]

/-! ## What an exchange agrees on -/

/-- The priorities of a topic in agreed order, without their scores. -/
def agreedOn (result : PriorityResult) (topic : String) : List AnyValue :=
  ((result.topics.find? fun entry => entry.topic = .str topic).map fun entry =>
    entry.priorities.map PriorityScoredResult.priority).getD []

section Scores

variable {sha256 : Bytes → Bytes} {msgs : List PriorityMsg}

/-- The positions of a message in a topic are those of the list it offers there. -/
theorem positionOf_offered {msg : PriorityMsg} (valid : TopicsValid sha256 msg.topics)
    {topic priority : AnyValue} {priorities : List AnyValue} {position : Nat}
    (offered : ⟨topic, priorities⟩ ∈ msg.topics) :
    positionOf msg topic priority = some position ↔ priorities[position]? = some priority := by
  rw [positionOf_eq_some_iff valid]
  constructor
  · rintro ⟨proposal, member, same, here⟩
    have equal := List.inj_on_of_nodup_map valid.distinct member offered
      (congrArg (keyOf sha256) same)
    rwa [equal] at here
  · intro here
    exact ⟨_, offered, rfl, here⟩

theorem summedScore_cons (msg : PriorityMsg) (rest : List PriorityMsg) (topic priority : AnyValue) :
    summedScore (msg :: rest) topic priority =
      ((positionOf msg topic priority).map fun position : Nat => (1000 : Int) - position).getD 0 +
        summedScore rest topic priority := by
  unfold summedScore
  rw [List.filterMap_cons]
  cases positionOf msg topic priority with
  | none => exact (Int.zero_add _).symm
  | some position => exact List.sum_cons

/-- A priority that every message gives a low position has a high score. -/
theorem le_summedScore {topic priority : AnyValue} {bound : Nat}
    (each : ∀ msg ∈ msgs, ∃ position ≤ bound, positionOf msg topic priority = some position) :
    (1000 - bound : Int) * msgs.length ≤ summedScore msgs topic priority := by
  induction msgs with
  | nil => exact Int.le_of_eq (Int.mul_zero _)
  | cons msg rest ih =>
      obtain ⟨⟨position, small, here⟩, later⟩ := List.forall_mem_cons.mp each
      have others := ih later
      rw [summedScore_cons, here, Option.map_some, Option.getD_some, List.length_cons,
        Int.natCast_add, Int.mul_add]
      omega

/-- A priority that no message puts first loses a point for every message. -/
theorem summedScore_le {topic priority : AnyValue}
    (each : ∀ msg ∈ msgs, positionOf msg topic priority ≠ some 0) :
    summedScore msgs topic priority ≤ 999 * msgs.length := by
  induction msgs with
  | nil => exact Int.le_refl _
  | cons msg rest ih =>
      obtain ⟨here, later⟩ := List.forall_mem_cons.mp each
      have others := ih later
      rw [summedScore_cons, List.length_cons]
      cases found : positionOf msg topic priority with
      | none =>
          rw [Option.map_none, Option.getD_none]
          omega
      | some position =>
          have positive : position ≠ 0 := fun zero => here (zero ▸ found)
          rw [Option.map_some, Option.getD_some]
          omega

variable {minRequired : Int} {result : PriorityResult}
  (returned : calculateResult sha256 msgs minRequired = .ok result)
  (apart : HashesApart sha256 msgs)

include returned apart

theorem ranksTopic_of_mem {entry : PriorityTopicResult} (member : entry ∈ result.topics) :
    RanksTopic msgs minRequired entry := by
  obtain ⟨accepted, rfl⟩ := calculateResult_eq_ok_iff.mp returned
  have sorted : entry ∈ (sortedResults sha256 msgs minRequired).map Prod.snd := member
  obtain ⟨item, inSorted, rfl⟩ := List.mem_map.mp sorted
  obtain ⟨⟨msg, inMsgs, proposal, inTopics, same⟩, -, shape⟩ := topic_of_mem_sortedResults inSorted
  have occurs : item.2.topic ∈ stringsOf msgs := same ▸ mem_stringsOf_topic inMsgs inTopics
  rw [shape]
  exact ranksTopic accepted apart occurs minRequired

/-- The agreed priorities of a topic are those of its entry, or there are none. -/
theorem agreedOn_cases (topic : String) : agreedOn result topic = [] ∨
    ∃ entry, entry.topic = .str topic ∧ RanksTopic msgs minRequired entry ∧
      agreedOn result topic = entry.priorities.map PriorityScoredResult.priority := by
  unfold agreedOn
  cases found : result.topics.find? fun entry => entry.topic = .str topic with
  | none => exact Or.inl rfl
  | some entry =>
      have member := List.mem_of_find?_eq_some found
      have same : entry.topic = .str topic := by simpa using List.find?_some found
      exact Or.inr ⟨entry, same, ranksTopic_of_mem returned apart member, rfl⟩

/-- A topic that is offered has an entry. -/
theorem agreedOn_of_offered {topic : String} {msg : PriorityMsg} (member : msg ∈ msgs)
    {priorities : List AnyValue} (offered : ⟨.str topic, priorities⟩ ∈ msg.topics) :
    ∃ entry, entry.topic = .str topic ∧ RanksTopic msgs minRequired entry ∧
      agreedOn result topic = entry.priorities.map PriorityScoredResult.priority := by
  obtain ⟨accepted, shape⟩ := calculateResult_eq_ok_iff.mp returned
  have proposed : proposalsFor sha256 (orderedMsgs msgs) (keyOf sha256 (.str topic)) ≠ [] :=
    proposalsFor_ne_nil_iff.mpr ⟨msg, member, _, offered, rfl⟩
  have inSorted := mem_sortedResults.mpr ⟨proposed, @rfl _ (resultFor sha256
    (minScoreOf minRequired) (keyOf sha256 (.str topic), proposalsFor sha256 (orderedMsgs msgs)
      (keyOf sha256 (.str topic))))⟩
  obtain ⟨⟨other, inMsgs, proposal, inTopics, same⟩, hashed, -⟩ :=
    topic_of_mem_sortedResults inSorted
  have named := apart.eq_of_key_eq accepted (same ▸ mem_stringsOf_topic inMsgs inTopics)
    (mem_stringsOf_topic member offered) hashed
  have listed : (resultFor sha256 (minScoreOf minRequired) (keyOf sha256 (.str topic),
      proposalsFor sha256 (orderedMsgs msgs) (keyOf sha256 (.str topic)))).2 ∈ result.topics := by
    rw [shape]
    exact List.mem_map_of_mem inSorted
  unfold agreedOn
  cases found : result.topics.find? fun entry => entry.topic = .str topic with
  | none => exact absurd (decide_eq_true named) (List.find?_eq_none.mp found _ listed)
  | some entry =>
      have isTopic : entry.topic = .str topic := by simpa using List.find?_some found
      exact ⟨entry, isTopic, ranksTopic_of_mem returned apart (List.mem_of_find?_eq_some found), rfl⟩

/-- What is agreed on was proposed by the required number of nodes, and by one at least. -/
theorem supported_of_agreedOn {topic : String} {priority : AnyValue}
    (agreed : priority ∈ agreedOn result topic) :
    minRequired ≤ (msgs.countP fun msg => (positionOf msg (.str topic) priority).isSome : Nat) ∧
      ∃ msg ∈ msgs, (positionOf msg (.str topic) priority).isSome = true := by
  rcases agreedOn_cases returned apart topic with none | ⟨entry, named, ranks, values⟩
  · rw [none] at agreed
    cases agreed
  · rw [values] at agreed
    obtain ⟨proposed, -⟩ := (ranks.listed priority).mp agreed
    obtain ⟨scored, member, rfl⟩ := List.mem_map.mp agreed
    have supported := ranks.supported scored member
    have few := List.toFinset_card_le (proposers msgs entry.topic scored.priority)
    rw [named] at proposed few supported
    constructor
    · rw [proposers, List.length_map, ← List.countP_eq_length_filter] at few
      exact Int.le_trans supported (Int.ofNat_le.mpr few)
    · obtain ⟨peer, among⟩ := List.exists_mem_of_ne_nil _ proposed
      obtain ⟨msg, inMsgs, -, position, here⟩ := mem_proposers.mp among
      exact ⟨msg, inMsgs, by rw [here]; rfl⟩

/-- What is agreed on are strings. -/
theorem string_of_agreedOn {topic : String} {priority : AnyValue}
    (agreed : priority ∈ agreedOn result topic) : priority ≠ .unencodable := by
  have accepted := (calculateResult_eq_ok_iff.mp returned).1
  obtain ⟨-, msg, member, proposed⟩ := supported_of_agreedOn returned apart agreed
  obtain ⟨position, here⟩ := Option.isSome_iff_exists.mp proposed
  exact accepted.string_of_mem (mem_stringsOf_of_positionOf accepted member here).2

end Scores

/-- One exchange: every message offers what the settings of its sender give, and the result
holds the agreed priorities of each topic. -/
structure Exchange (sha256 : Bytes → Bytes) (minRequired : Int) where
  msgs : List PriorityMsg
  settings : String → Settings
  calculated : PriorityResult
  result : InfoSyncResult
  returned : calculateResult sha256 msgs minRequired = .ok calculated
  apart : HashesApart sha256 msgs
  duty : ∀ msg ∈ msgs, msg.duty = infosyncDuty result.slot
  types : ∀ msg ∈ msgs, ⟨.str topicProposal,
    (settings msg.peerId).proposalTypes.map fun kind => .str kind.value⟩ ∈ msg.topics
  protocols : ∀ msg ∈ msgs, ⟨.str topicProtocol,
    (settings msg.peerId).offeredProtocols.map .str⟩ ∈ msg.topics
  versions_eq : result.versions.map .str = agreedOn calculated topicVersion
  protocols_eq : result.protocols.map .str = agreedOn calculated topicProtocol
  proposals_eq : result.proposals.map .str = agreedOn calculated topicProposal

namespace Exchange

variable {sha256 : Bytes → Bytes} {minRequired : Int} (exchange : Exchange sha256 minRequired)

theorem accepted : Accepted sha256 exchange.msgs :=
  (calculateResult_eq_ok_iff.mp exchange.returned).1

/-- The nodes that enable a proposal type. -/
def enabling (kind : ProposalType) : Nat :=
  exchange.msgs.countP fun msg => kind ∈ (exchange.settings msg.peerId).proposalTypes

/-- The nodes that support a protocol. -/
def supporting (protocol : String) : Nat :=
  exchange.msgs.countP fun msg => protocol ∈ (exchange.settings msg.peerId).protocols

variable {exchange}

/-- A message proposes a type that its sender enables. -/
theorem exists_kind {msg : PriorityMsg} (member : msg ∈ exchange.msgs) {text : String}
    (proposed : (positionOf msg (.str topicProposal) (.str text)).isSome = true) :
    ∃ kind ∈ (exchange.settings msg.peerId).proposalTypes, kind.value = text := by
  obtain ⟨position, here⟩ := Option.isSome_iff_exists.mp proposed
  have offered := (positionOf_offered (exchange.accepted.topics msg member)
    (exchange.types msg member)).mp here
  obtain ⟨kind, enabled, same⟩ := List.mem_map.mp (List.mem_of_getElem? offered)
  exact ⟨kind, enabled, AnyValue.str.inj same⟩

/-- A message proposes a protocol that its sender supports. -/
theorem mem_protocols {msg : PriorityMsg} (member : msg ∈ exchange.msgs) {text : String}
    (proposed : (positionOf msg (.str topicProtocol) (.str text)).isSome = true) :
    text ∈ (exchange.settings msg.peerId).protocols := by
  obtain ⟨position, here⟩ := Option.isSome_iff_exists.mp proposed
  have offered := (positionOf_offered (exchange.accepted.topics msg member)
    (exchange.protocols msg member)).mp here
  obtain ⟨protocol, listed, same⟩ := List.mem_map.mp (List.mem_of_getElem? offered)
  rw [← AnyValue.str.inj same]
  exact (perm_localProtocolPriorities _ _ _).subset listed

/-- An agreed proposal type is enabled on the required number of nodes. -/
theorem enabling_of_mem {text : String} (agreed : text ∈ exchange.result.proposals) :
    ∃ kind : ProposalType, kind.value = text ∧ minRequired ≤ exchange.enabling kind := by
  have listed : AnyValue.str text ∈ agreedOn exchange.calculated topicProposal :=
    exchange.proposals_eq ▸ List.mem_map_of_mem agreed
  obtain ⟨enough, msg, member, proposed⟩ :=
    supported_of_agreedOn exchange.returned exchange.apart listed
  obtain ⟨kind, -, rfl⟩ := exists_kind member proposed
  refine ⟨kind, rfl, Int.le_trans enough (Int.ofNat_le.mpr (List.countP_mono_left ?_))⟩
  intro other inMsgs proposedToo
  obtain ⟨same, enabled, equal⟩ := exists_kind inMsgs proposedToo
  exact decide_eq_true (value_inj equal ▸ enabled)

/-- An agreed protocol is supported by the required number of nodes. -/
theorem supporting_of_mem {text : String} (agreed : text ∈ exchange.result.protocols) :
    minRequired ≤ exchange.supporting text := by
  have listed : AnyValue.str text ∈ agreedOn exchange.calculated topicProtocol :=
    exchange.protocols_eq ▸ List.mem_map_of_mem agreed
  obtain ⟨enough, -⟩ := supported_of_agreedOn exchange.returned exchange.apart listed
  refine Int.le_trans enough (Int.ofNat_le.mpr (List.countP_mono_left ?_))
  intro other inMsgs proposed
  exact decide_eq_true (mem_protocols inMsgs proposed)

/-- An exchange that agrees on a version had the required number of messages. -/
theorem enough_msgs (agrees : exchange.result.versions ≠ []) :
    minRequired ≤ exchange.msgs.length := by
  obtain ⟨version, among⟩ := List.exists_mem_of_ne_nil _ agrees
  have listed : AnyValue.str version ∈ agreedOn exchange.calculated topicVersion :=
    exchange.versions_eq ▸ List.mem_map_of_mem among
  obtain ⟨enough, -⟩ := supported_of_agreedOn exchange.returned exchange.apart listed
  exact Int.le_trans enough (Int.ofNat_le.mpr List.countP_le_length)

/-- The full type is agreed on, as its positions cost less than the support of one node. -/
theorem full_mem_proposals (few : minRequired < 500) (agrees : exchange.result.versions ≠ []) :
    "full" ∈ exchange.result.proposals := by
  have enough := enough_msgs agrees
  have positions : ∀ msg ∈ exchange.msgs, ∃ position ≤ 2,
      positionOf msg (.str topicProposal) (.str "full") = some position := by
    intro msg member
    obtain ⟨position, small, here⟩ := exists_full_position
      (exchange.settings msg.peerId).builder (exchange.settings msg.peerId).synthetic
    refine ⟨position, small, (positionOf_offered (exchange.accepted.topics msg member)
      (exchange.types msg member)).mpr ?_⟩
    rw [List.getElem?_map, Settings.proposalTypes, here]
    rfl
  obtain ⟨msg, member⟩ := List.exists_mem_of_ne_nil _ exchange.accepted.nonempty
  obtain ⟨entry, named, ranks, values⟩ := agreedOn_of_offered exchange.returned exchange.apart
    member (exchange.types msg member)
  obtain ⟨position, -, here⟩ := positions msg member
  have score := le_summedScore positions
  have listed : AnyValue.str "full" ∈ entry.priorities.map PriorityScoredResult.priority := by
    refine (ranks.listed _).mpr ⟨?_, ?_⟩
    · rw [named]
      exact List.ne_nil_of_mem (mem_proposers.mpr ⟨msg, member, rfl, position, here⟩)
    · rw [named]
      omega
  rw [← values, ← exchange.proposals_eq] at listed
  obtain ⟨text, among, same⟩ := List.mem_map.mp listed
  exact AnyValue.str.inj same ▸ among

/-- A protocol that every node puts first is the first one agreed on. -/
theorem head?_protocols {preferred : String} (agrees : exchange.result.versions ≠ [])
    (front : ∀ msg ∈ exchange.msgs,
      (exchange.settings msg.peerId).offeredProtocols.head? = some preferred) :
    exchange.result.protocols.head? = some preferred := by
  have enough := enough_msgs agrees
  have first : ∀ msg ∈ exchange.msgs, ∀ priority,
      positionOf msg (.str topicProtocol) priority = some 0 ↔ priority = .str preferred := by
    intro msg member priority
    rw [positionOf_offered (exchange.accepted.topics msg member) (exchange.protocols msg member),
      ← List.head?_eq_getElem?, List.head?_map, front msg member, Option.map_some,
      Option.some.injEq]
    exact eq_comm
  obtain ⟨msg, member⟩ := List.exists_mem_of_ne_nil _ exchange.accepted.nonempty
  have nonempty : 0 < exchange.msgs.length := List.length_pos_of_mem member
  obtain ⟨entry, named, ranks, values⟩ := agreedOn_of_offered exchange.returned exchange.apart
    member (exchange.protocols msg member)
  have score := @le_summedScore exchange.msgs (.str topicProtocol) (.str preferred) 0
    fun other inMsgs => ⟨0, Nat.le_refl _, (first other inMsgs _).mpr rfl⟩
  have listed : AnyValue.str preferred ∈ entry.priorities.map PriorityScoredResult.priority := by
    refine (ranks.listed _).mpr ⟨?_, ?_⟩
    · rw [named]
      exact List.ne_nil_of_mem
        (mem_proposers.mpr ⟨msg, member, rfl, 0, (first msg member _).mpr rfl⟩)
    · rw [named]
      omega
  have head : (entry.priorities.map PriorityScoredResult.priority).head? =
      some (.str preferred) := by
    have scores := ranks.scores
    have ordered := ranks.ordered
    cases entries : entry.priorities with
    | nil =>
        rw [entries] at listed
        cases listed
    | cons best rest =>
        rw [entries] at listed ordered scores
        rw [List.map_cons, List.head?_cons, Option.some.injEq]
        by_contra other
        -- another best priority is put first by nobody, so it scores less
        obtain ⟨scored, inRest, same⟩ := List.mem_map.mp
          ((List.mem_cons.mp listed).resolve_left fun equal => other equal.symm)
        have lower := @summedScore_le exchange.msgs (.str topicProtocol) best.priority
          fun msg inMsgs zero => other ((first msg inMsgs _).mp zero)
        have bestScore := scores best List.mem_cons_self
        have itsScore := scores scored (List.mem_cons_of_mem _ inRest)
        rw [named] at bestScore itsScore
        rw [same] at itsScore
        rcases (List.pairwise_cons.mp ordered).1 scored inRest with below | ⟨equal, -⟩
        · omega
        · omega
  rw [← values, ← exchange.protocols_eq, List.head?_map] at head
  obtain ⟨text, found, same⟩ := Option.map_eq_some_iff.mp head
  rw [found, AnyValue.str.inj same]

end Exchange

/-! ## Runs of exchanges -/

theorem mem_addResult {results : List InfoSyncResult} {result other : InfoSyncResult}
    (member : other ∈ addResult results result) : other ∈ results ++ [result] := by
  unfold addResult at member
  split at member
  · exact List.mem_append_left _ member
  · split at member
    · exact List.mem_append_left _ member
    · dsimp only at member
      split at member
      · exact List.mem_of_mem_drop member
      · exact member

theorem mem_history {results : List InfoSyncResult} {result : InfoSyncResult}
    (member : result ∈ history results) : result ∈ results := by
  induction results using List.reverseRecOn with
  | nil => exact member
  | append_singleton results last ih =>
      rw [history_concat] at member
      rcases List.mem_append.mp (mem_addResult member) with old | new
      · exact List.mem_append_left _ (ih old)
      · exact List.mem_append_right _ new

/-- The result that is looked up is retained and not after the slot. -/
theorem mem_of_latestResult {results : List InfoSyncResult} {slot : Int} {result : InfoSyncResult}
    (found : latestResult results slot = some result) :
    result ∈ results ∧ (result.slot : Int) ≤ slot := by
  rw [latestResult_eq] at found
  have last := List.mem_of_getLast? found
  have early := List.mem_takeWhile_imp last
  exact ⟨(List.takeWhile_sublist _).subset last, of_decide_eq_true early⟩

section Runs

variable {sha256 : Bytes → Bytes} {minRequired : Int}

/-- The results retained after some exchanges. -/
def retained (exchanges : List (Exchange sha256 minRequired)) : List InfoSyncResult :=
  history (exchanges.map Exchange.result)

/-- A slot is governed by an exchange that agreed on something, or by none. -/
theorem governing_cases (exchanges : List (Exchange sha256 minRequired)) (slot : Int) :
    latestResult (retained exchanges) slot = none ∨
      ∃ exchange ∈ exchanges, (exchange.result.slot : Int) ≤ slot ∧
        exchange.result.versions ≠ [] ∧
          latestResult (retained exchanges) slot = some exchange.result := by
  cases found : latestResult (retained exchanges) slot with
  | none => exact Or.inl rfl
  | some result =>
      obtain ⟨kept, early⟩ := mem_of_latestResult found
      obtain ⟨exchange, member, rfl⟩ := List.mem_map.mp (mem_history kept)
      exact Or.inr ⟨exchange, member, early, (retained_history _).versions _ kept, rfl⟩

/-- After any exchanges the proposal types in force at a slot contain the full type, and every
other one is enabled on the required number of nodes of an exchange not after the slot. -/
theorem selectedProposalTypes_supported (few : minRequired < 500)
    (exchanges : List (Exchange sha256 minRequired)) (slot : Int) :
    "full" ∈ selectedProposalTypes (retained exchanges) slot ∧
      ∀ text ∈ selectedProposalTypes (retained exchanges) slot, text = "full" ∨
        ∃ exchange ∈ exchanges, (exchange.result.slot : Int) ≤ slot ∧
          ∃ kind : ProposalType, kind.value = text ∧ minRequired ≤ exchange.enabling kind := by
  unfold selectedProposalTypes
  rcases governing_cases exchanges slot with none | ⟨exchange, member, early, agrees, found⟩
  · rw [none]
    exact ⟨List.mem_cons_self, fun text listed => Or.inl (List.mem_singleton.mp listed)⟩
  · rw [found]
    refine ⟨Exchange.full_mem_proposals few agrees, fun text listed => Or.inr ?_⟩
    exact ⟨exchange, member, early, Exchange.enabling_of_mem listed⟩

/-- After any exchanges the consensus protocol in force at a slot is supported by the required
number of nodes of an exchange not after the slot, or by the node itself while no exchange
governs the slot, or it is the fallback. -/
theorem selectedConsensusProtocol_supported (exchanges : List (Exchange sha256 minRequired))
    (slot : Int) (own : Settings) :
    let chosen := mostPreferredConsensusProtocol
      (selectedProtocols (retained exchanges) slot own.offeredProtocols)
    chosen = qbftV2ProtocolId ∨
      (latestResult (retained exchanges) slot = none ∧ chosen ∈ own.protocols) ∨
      ∃ exchange ∈ exchanges, (exchange.result.slot : Int) ≤ slot ∧
        minRequired ≤ exchange.supporting chosen := by
  intro chosen
  rcases mostPreferred_cases
    (selectedProtocols (retained exchanges) slot own.offeredProtocols) with listed | fallback
  · right
    unfold selectedProtocols at listed
    rcases governing_cases exchanges slot with none | ⟨exchange, member, early, -, found⟩
    · left
      rw [none] at listed
      have offered : chosen ∈ own.offeredProtocols := by
        simp only [chosen, selectedProtocols, none]
        exact listed
      exact ⟨none, (perm_localProtocolPriorities _ _ _).subset offered⟩
    · right
      rw [found] at listed
      have agreed : chosen ∈ exchange.result.protocols := by
        simp only [chosen, selectedProtocols, found]
        exact listed
      exact ⟨exchange, member, early, Exchange.supporting_of_mem agreed⟩
  · exact Or.inl fallback

/-- When every node has configured one consensus protocol and supports one version of it, that
version is in force at every slot, whatever the lock prefers and whatever else is supported. -/
theorem selectedConsensusProtocol_configured {name preferred : String}
    (exchanges : List (Exchange sha256 minRequired))
    (everyone : ∀ exchange ∈ exchanges, ∀ msg ∈ exchange.msgs,
      (exchange.settings msg.peerId).Prefers name preferred) (slot : Int) {own : Settings}
    (itself : own.Prefers name preferred) :
    mostPreferredConsensusProtocol
      (selectedProtocols (retained exchanges) slot own.offeredProtocols) = preferred := by
  refine mostPreferred_of_head? ?_ itself.consensus
  unfold selectedProtocols
  rcases governing_cases exchanges slot with none | ⟨exchange, member, -, agrees, found⟩
  · rw [none]
    exact itself.head?_offeredProtocols
  · rw [found]
    exact Exchange.head?_protocols agrees fun msg inMsgs =>
      (everyone exchange member msg inMsgs).head?_offeredProtocols

end Runs

/-! ## Three nodes -/

section ThreeNodes

/-- The string of a value. -/
def textOf : AnyValue → Option String
  | .str text => some text
  | .unencodable => none

theorem map_str_filterMap_textOf {values : List AnyValue}
    (strings : ∀ value ∈ values, value ≠ .unencodable) :
    (values.filterMap textOf).map .str = values := by
  induction values with
  | nil => rfl
  | cons value rest ih =>
      obtain ⟨string, later⟩ := List.forall_mem_cons.mp strings
      cases value with
      | str text => exact congrArg (AnyValue.str text :: ·) (ih later)
      | unencodable => exact absurd rfl string

/-- All nodes have configured one protocol where the lock prefers another, and all but one
enable the builder. -/
def nodeSettings (peer : String) : Settings where
  protocols := ["/charon/consensus/qbft/2.0.0", "/charon/consensus/abft/1.0.0"]
  lockPreferredProtocol := "qbft"
  configuredProtocol := "abft"
  builder := peer != "c"
  synthetic := false

def nodeMsg (peer : String) : PriorityMsg where
  duty := infosyncDuty 31
  topics := [⟨.str topicVersion, [.str "v1.11"]⟩,
    ⟨.str topicProtocol, (nodeSettings peer).offeredProtocols.map .str⟩,
    ⟨.str topicProposal, (nodeSettings peer).proposalTypes.map fun kind => .str kind.value⟩]
  peerId := peer
  signature := []

def nodeMsgs : List PriorityMsg := ["a", "b", "c"].map nodeMsg

/-- All that the nodes propose. -/
def nodeStrings : List AnyValue :=
  [.str "version", .str "protocol", .str "proposal", .str "v1.11",
    .str "/charon/consensus/abft/1.0.0", .str "/charon/consensus/qbft/2.0.0", .str "builder",
    .str "full"]

theorem nodup_nodeStrings : (nodeStrings.map (keyOf Sha256.sha256)).Nodup := by decide +kernel

theorem string_of_mem_nodeStrings {value : AnyValue} (member : value ∈ nodeStrings) :
    value ≠ .unencodable := by
  rintro rfl
  revert member
  decide

theorem prioritiesValid_of_sublist {values : List AnyValue} (part : values.Sublist nodeStrings) :
    PrioritiesValid Sha256.sha256 values where
  strings _ member := string_of_mem_nodeStrings (part.subset member)
  distinct := nodup_nodeStrings.sublist (part.map _)
  few := Nat.lt_of_le_of_lt part.length_le (by decide)

theorem offeredProtocols_nodeSettings (peer : String) : (nodeSettings peer).offeredProtocols =
    ["/charon/consensus/abft/1.0.0", "/charon/consensus/qbft/2.0.0"] := by
  change localProtocolPriorities ["/charon/consensus/qbft/2.0.0", "/charon/consensus/abft/1.0.0"]
    "qbft" "abft" = _
  decide +kernel

theorem sublist_proposalTypes (peer : String) :
    ((nodeSettings peer).proposalTypes.map fun kind => AnyValue.str kind.value).Sublist
      nodeStrings := by
  have both : ∀ builder, ((localProposalTypes builder false).map fun kind =>
      AnyValue.str kind.value).Sublist nodeStrings := by decide +kernel
  exact both _

theorem topicsValid_nodeMsg (peer : String) : TopicsValid Sha256.sha256 (nodeMsg peer).topics where
  strings := by
    simp [nodeMsg]
  distinct := by
    have part : [AnyValue.str "version", .str "protocol", .str "proposal"].Sublist nodeStrings := by
      decide +kernel
    exact nodup_nodeStrings.sublist (part.map _)
  priorities := by
    have protocols : ((nodeSettings peer).offeredProtocols.map AnyValue.str).Sublist
        nodeStrings := by
      rw [offeredProtocols_nodeSettings]
      decide +kernel
    have versions : [AnyValue.str "v1.11"].Sublist nodeStrings := by decide +kernel
    exact List.forall_mem_cons.mpr ⟨prioritiesValid_of_sublist versions,
      List.forall_mem_cons.mpr ⟨prioritiesValid_of_sublist protocols,
        List.forall_mem_singleton.mpr (prioritiesValid_of_sublist (sublist_proposalTypes peer))⟩⟩

theorem accepted_nodeMsgs : Accepted Sha256.sha256 nodeMsgs where
  nonempty := List.cons_ne_nil _ _
  duty := by
    simp [nodeMsgs, nodeMsg]
  peers := by
    rw [nodeMsgs, List.map_map]
    decide
  topics := by
    intro msg member
    obtain ⟨peer, -, rfl⟩ := List.mem_map.mp member
    exact topicsValid_nodeMsg peer

theorem apart_nodeMsgs : HashesApart Sha256.sha256 nodeMsgs := by
  have known : ∀ value ∈ stringsOf nodeMsgs, value ∈ nodeStrings := by decide +kernel
  intro one inOne two inTwo same
  have first := known one inOne
  have second := known two inTwo
  rw [priorityHash_of_string (string_of_mem_nodeStrings first),
    priorityHash_of_string (string_of_mem_nodeStrings second), Except.ok.injEq] at same
  exact List.inj_on_of_nodup_map nodup_nodeStrings first second same

/-- What the nodes calculate when two of them are required. -/
def nodeResult : PriorityResult :=
  ⟨nodeMsgs, topicsOf Sha256.sha256 (orderedMsgs nodeMsgs) (minScoreOf 2)⟩

theorem returned_nodeMsgs : calculateResult Sha256.sha256 nodeMsgs 2 = .ok nodeResult :=
  calculateResult_eq_ok accepted_nodeMsgs 2

theorem texts_nodeResult (topic : String) :
    ((agreedOn nodeResult topic).filterMap textOf).map .str = agreedOn nodeResult topic :=
  map_str_filterMap_textOf fun _ agreed =>
    string_of_agreedOn returned_nodeMsgs apart_nodeMsgs agreed

theorem nodeSlot_lt : 31 < 2 ^ 64 := by decide

theorem duty_nodeMsgs : ∀ msg ∈ nodeMsgs, msg.duty = infosyncDuty 31 := by
  intro msg member
  obtain ⟨peer, -, rfl⟩ := List.mem_map.mp member
  rfl

theorem types_nodeMsgs : ∀ msg ∈ nodeMsgs, ⟨.str topicProposal,
    (nodeSettings msg.peerId).proposalTypes.map fun kind => .str kind.value⟩ ∈ msg.topics := by
  intro msg member
  obtain ⟨peer, -, rfl⟩ := List.mem_map.mp member
  exact List.mem_cons_of_mem _ (List.mem_cons_of_mem _ List.mem_cons_self)

theorem protocols_nodeMsgs : ∀ msg ∈ nodeMsgs, ⟨.str topicProtocol,
    (nodeSettings msg.peerId).offeredProtocols.map .str⟩ ∈ msg.topics := by
  intro msg member
  obtain ⟨peer, -, rfl⟩ := List.mem_map.mp member
  exact List.mem_cons_of_mem _ List.mem_cons_self

/-- The exchange of the three nodes. -/
def nodeExchange : Exchange Sha256.sha256 2 where
  msgs := nodeMsgs
  settings := nodeSettings
  calculated := nodeResult
  result := {
    slot := 31
    versions := (agreedOn nodeResult topicVersion).filterMap textOf
    protocols := (agreedOn nodeResult topicProtocol).filterMap textOf
    proposals := (agreedOn nodeResult topicProposal).filterMap textOf
    slot_lt := nodeSlot_lt }
  returned := returned_nodeMsgs
  apart := apart_nodeMsgs
  duty := duty_nodeMsgs
  types := types_nodeMsgs
  protocols := protocols_nodeMsgs
  versions_eq := texts_nodeResult topicVersion
  protocols_eq := texts_nodeResult topicProtocol
  proposals_eq := texts_nodeResult topicProposal

theorem prefers_nodeSettings (peer : String) :
    (nodeSettings peer).Prefers "abft" "/charon/consensus/abft/1.0.0" where
  configured := rfl
  name_ne := by decide
  named := by decide +kernel
  supported := List.mem_cons_of_mem _ List.mem_cons_self
  only := by
    change ∀ protocol ∈ ["/charon/consensus/qbft/2.0.0", "/charon/consensus/abft/1.0.0"], _
    decide +kernel

/-- Two nodes suffice for the builder. -/
theorem selectedProposalTypes_supported_threeNodes :
    "full" ∈ selectedProposalTypes (retained [nodeExchange]) 40 ∧
      ∀ text ∈ selectedProposalTypes (retained [nodeExchange]) 40, text = "full" ∨
        ∃ exchange ∈ [nodeExchange], (exchange.result.slot : Int) ≤ 40 ∧
          ∃ kind : ProposalType, kind.value = text ∧ 2 ≤ (exchange.enabling kind : Int) :=
  selectedProposalTypes_supported (by decide) [nodeExchange] 40

/-- The configured protocol is selected against the preference of the lock. -/
theorem selectedConsensusProtocol_configured_threeNodes :
    mostPreferredConsensusProtocol (selectedProtocols (retained [nodeExchange]) 40
      (nodeSettings "a").offeredProtocols) = "/charon/consensus/abft/1.0.0" :=
  selectedConsensusProtocol_configured [nodeExchange]
    (List.forall_mem_singleton.mpr fun msg _ => prefers_nodeSettings msg.peerId) 40
    (prefers_nodeSettings "a")

end ThreeNodes

end DvSpec.InfoSync
