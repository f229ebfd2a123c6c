import DvSpec.Consensus.Cluster
import Mathlib.Data.List.Perm.Subperm

/-!
# A network without duplication

All peers of a cluster run the protocol.  The i-th copy of a broadcast travels to
peer i; the network may delay, reorder or drop copies, and delivers none twice.
-/

namespace DvSpec.Consensus

open DvSpec.Library
open QBFTConsensus

/-- A cluster without Byzantine peers. -/
def Committee.faultFree (d : Definition) (duty : Duty) (nodes : 0 < d.nodes) : Committee where
  d
  duty
  byzantine := ∅
  nodes
  bound := Definition.faulty_nonneg nodes

/-- The copies of a broadcast with their destinations. -/
def addressed (copies : List QBFTConsensusMsg) : List (Nat × QBFTConsensusMsg) :=
  copies.zipIdx.map Prod.swap

/-- The copies on their way to a peer. -/
def bound (p : Nat) (flight : List (Nat × QBFTConsensusMsg)) : List QBFTConsensusMsg :=
  (flight.filter fun entry => entry.1 = p).map Prod.snd

/-- A cluster with the copies in flight. -/
structure Network where
  cluster : Cluster
  inFlight : List (Nat × QBFTConsensusMsg)

namespace Network

variable [Crypto]

/-- At the start only the proposal of the first leader is in flight. -/
def start (d : Definition) (duty : Duty) (transport : Nat → Transport) (proposal : Nat → Bytes) :
    Network where
  cluster := Cluster.start d duty transport proposal
  inFlight := addressed ((Cluster.start d duty transport proposal).sent (d.leader duty 1))

/-- An event at a peer that leaves some copies in flight and adds those it sends. -/
def act (n : Network) (p : Nat) (event : Event) (remaining : List (Nat × QBFTConsensusMsg)) :
    Network where
  cluster := (n.cluster.step (p, event)).2
  inFlight := remaining ++ addressed (n.cluster.step (p, event)).1

/-- One copy is delivered. -/
inductive Delivers (nodes : Nat) (n : Network) : Network → Prop where
  | deliver {before after : List (Nat × QBFTConsensusMsg)} {p : Nat}
      {consensusMsg : QBFTConsensusMsg} (inside : p < nodes)
      (split : n.inFlight = before ++ (p, consensusMsg) :: after) :
      Delivers nodes n (n.act p (.receive consensusMsg) (before ++ after))

/-- One copy is delivered or dropped, or a peer times out. -/
inductive Step (nodes : Nat) (n : Network) : Network → Prop where
  | deliver {next : Network} (delivers : Delivers nodes n next) : Step nodes n next
  | drop {before after : List (Nat × QBFTConsensusMsg)} {entry : Nat × QBFTConsensusMsg}
      (split : n.inFlight = before ++ entry :: after) :
      Step nodes n { n with inFlight := before ++ after }
  | timeout {p : Nat} (inside : p < nodes) : Step nodes n (n.act p .timeout n.inFlight)

/-- The copies a peer has buffered or may still receive. -/
def pending (n : Network) (p : Nat) : List QBFTConsensusMsg :=
  (n.cluster.peer p).buffered ++ bound p n.inFlight

end Network

/-! ## Copies on their way -/

theorem mem_bound {p : Nat} {flight : List (Nat × QBFTConsensusMsg)} {m : QBFTConsensusMsg} :
    m ∈ bound p flight ↔ (p, m) ∈ flight := by
  simp [bound]

theorem bound_append (p : Nat) (first second : List (Nat × QBFTConsensusMsg)) :
    bound p (first ++ second) = bound p first ++ bound p second := by
  simp [bound]

theorem bound_cons_self (p : Nat) (m : QBFTConsensusMsg)
    (flight : List (Nat × QBFTConsensusMsg)) :
    bound p ((p, m) :: flight) = m :: bound p flight := by
  simp [bound]

theorem bound_cons_ne {p q : Nat} (other : p ≠ q) (m : QBFTConsensusMsg)
    (flight : List (Nat × QBFTConsensusMsg)) : bound p ((q, m) :: flight) = bound p flight := by
  simp [bound, other.symm]

theorem bound_sublist {p : Nat} {first second : List (Nat × QBFTConsensusMsg)}
    (sublist : first.Sublist second) : (bound p first).Sublist (bound p second) :=
  (sublist.filter _).map _

/-- At most one copy of a broadcast travels to each peer. -/
theorem bound_addressed (p : Nat) (copies : List QBFTConsensusMsg) :
    bound p (addressed copies) = copies[p]?.toList := by
  have shifted : ∀ (copies : List QBFTConsensusMsg) (offset : Nat),
      bound p ((copies.zipIdx offset).map Prod.swap) =
        if offset ≤ p then copies[p - offset]?.toList else [] := by
    intro copies
    induction copies with
    | nil => simp [bound]
    | cons m rest ih =>
        intro offset
        rw [List.zipIdx_cons, List.map_cons, Prod.swap_prod_mk]
        rcases eq_or_ne p offset with rfl | other
        · rw [bound_cons_self, ih, if_neg (by omega), if_pos (Nat.le_refl _), Nat.sub_self]
          rfl
        · rw [bound_cons_ne other, ih]
          by_cases later : offset ≤ p
          · have index : p - offset = (p - (offset + 1)) + 1 := by omega
            rw [if_pos (by omega), if_pos later, index]
            rfl
          · rw [if_neg (by omega), if_neg later]
  simpa [addressed] using shifted copies 0

theorem mem_of_mem_addressed {entry : Nat × QBFTConsensusMsg} {copies : List QBFTConsensusMsg}
    (member : entry ∈ addressed copies) : entry.2 ∈ copies := by
  have travels := mem_bound.mpr (show (entry.1, entry.2) ∈ addressed copies from member)
  rw [bound_addressed, Option.mem_toList] at travels
  exact List.mem_of_getElem? travels

namespace Network

variable [Crypto] {n : Network} {p : Nat} {event : Event}
  {remaining : List (Nat × QBFTConsensusMsg)}

/-- An event uses up copies in flight: a delivered one, and none on a timeout. -/
inductive Consumes (flight : List (Nat × QBFTConsensusMsg)) (p : Nat) :
    Event → List (Nat × QBFTConsensusMsg) → Prop where
  | delivery {before after : List (Nat × QBFTConsensusMsg)} {consensusMsg : QBFTConsensusMsg}
      (split : flight = before ++ (p, consensusMsg) :: after) :
      Consumes flight p (.receive consensusMsg) (before ++ after)
  | timeout : Consumes flight p .timeout flight

omit [Crypto] in
theorem Consumes.sublist {flight : List (Nat × QBFTConsensusMsg)}
    (consumes : Consumes flight p event remaining) : remaining.Sublist flight := by
  cases consumes with
  | delivery split =>
      rw [split]
      exact List.Sublist.append_left (List.sublist_cons_self _ _) _
  | timeout => exact List.Sublist.refl _

omit [Crypto] in
theorem Consumes.received {flight : List (Nat × QBFTConsensusMsg)}
    (consumes : Consumes flight p event remaining) {consensusMsg : QBFTConsensusMsg}
    (same : event = .receive consensusMsg) : (p, consensusMsg) ∈ flight := by
  cases consumes with
  | delivery split =>
      cases same
      rw [split]
      exact List.mem_append_right _ List.mem_cons_self
  | timeout => cases same

omit [Crypto] in
/-- A delivered copy is no longer in flight. -/
theorem Consumes.perm_bound {flight : List (Nat × QBFTConsensusMsg)}
    (consumes : Consumes flight p event remaining) {consensusMsg : QBFTConsensusMsg}
    (same : event = .receive consensusMsg) :
    (bound p flight).Perm (consensusMsg :: bound p remaining) := by
  cases consumes with
  | delivery split =>
      cases same
      rw [split, bound_append, bound_cons_self, bound_append]
      exact List.perm_middle
  | timeout => cases same

/-- An event never adds to what a peer has buffered or may receive, apart from the new
copies. -/
theorem pending_act_subperm (consumes : Consumes n.inFlight p event remaining) (q : Nat) :
    ((n.act p event remaining).pending q).Subperm
      (n.pending q ++ (n.cluster.step (p, event)).1[q]?.toList) := by
  unfold pending
  rw [act, bound_append, bound_addressed, ← List.append_assoc]
  refine List.Subperm.append ?_ (List.Subperm.refl _)
  have fewer := (bound_sublist (p := q) consumes.sublist).subperm
  rcases eq_or_ne q p with rfl | other
  · rw [Cluster.peer_step_self]
    rcases ((n.cluster.peer q).step_effect event).buffer with
      same | ⟨consensusMsg, received, -, same⟩
    · rw [buffered_congr same]
      exact List.Subperm.append (List.Subperm.refl _) fewer
    · rw [buffered_congr same]
      have grown := (perm_buffered ((n.cluster.peer q).storeValues consensusMsg.values)
        consensusMsg).append_right (bound q remaining)
      rw [List.append_assoc] at grown
      have moved := (consumes.perm_bound received).symm.append_left (n.cluster.peer q).buffered
      exact (grown.trans moved).subperm
  · rw [Cluster.peer_step_ne other]
    exact List.Subperm.append (List.Subperm.refl _) fewer

/-! ## Schedules -/

/-- What the network does next: it delivers or drops the oldest copy in flight, or a peer times
out. -/
inductive Choice where
  | deliver
  | drop
  | timeout (p : Nat)

/-- The network after a choice; nothing happens when there is no such copy or peer. -/
def follow (nodes : Nat) (n : Network) : Choice → Network
  | .deliver =>
      match n.inFlight with
      | [] => n
      | (p, consensusMsg) :: rest =>
          if p < nodes then n.act p (.receive consensusMsg) rest else n
  | .drop => { n with inFlight := n.inFlight.tail }
  | .timeout p => if p < nodes then n.act p .timeout n.inFlight else n

/-- The network after a schedule. -/
def scheduled (nodes : Nat) (n : Network) (schedule : List Choice) : Network :=
  schedule.foldl (follow nodes) n

theorem follow_deliver (nodes : Nat) (n : Network) :
    n.follow nodes .deliver = n ∨ Delivers nodes n (n.follow nodes .deliver) := by
  rw [follow]
  split
  · exact Or.inl rfl
  · rename_i p consensusMsg rest oldest
    split
    · rename_i inside
      exact Or.inr (@Delivers.deliver _ _ _ [] rest _ _ inside oldest)
    · exact Or.inl rfl

theorem follow_cases (nodes : Nat) (n : Network) (choice : Choice) :
    n.follow nodes choice = n ∨ Step nodes n (n.follow nodes choice) := by
  cases choice with
  | deliver => exact (follow_deliver nodes n).imp_right Step.deliver
  | drop =>
      cases flight : n.inFlight with
      | nil =>
          left
          rw [follow, flight, List.tail_nil, ← flight]
      | cons entry rest =>
          right
          rw [follow, flight, List.tail_cons]
          exact @Step.drop _ _ _ [] rest entry flight
  | timeout p =>
      unfold follow
      dsimp only
      split
      · rename_i inside
        exact Or.inr (Step.timeout inside)
      · exact Or.inl rfl

/-- Every schedule is a run of the network. -/
theorem reached_scheduled (nodes : Nat) (n : Network) (schedule : List Choice) :
    Relation.ReflTransGen (Step nodes) n (n.scheduled nodes schedule) := by
  induction schedule generalizing n with
  | nil => exact Relation.ReflTransGen.refl
  | cons choice rest ih =>
      rcases follow_cases nodes n choice with same | step
      · have later := ih (n.follow nodes choice)
        rw [same] at later
        rw [scheduled, List.foldl_cons, same]
        exact later
      · exact Relation.ReflTransGen.head step (ih _)

/-- A schedule that only delivers is a run of deliveries. -/
theorem delivered_scheduled (nodes : Nat) (n : Network) (copies : Nat) :
    Relation.ReflTransGen (Delivers nodes) n
      (n.scheduled nodes (List.replicate copies .deliver)) := by
  induction copies generalizing n with
  | zero => exact Relation.ReflTransGen.refl
  | succ copies ih =>
      rw [List.replicate_succ, scheduled, List.foldl_cons]
      rcases follow_deliver nodes n with same | delivers
      · rw [same]
        exact ih n
      · exact Relation.ReflTransGen.head delivers (ih _)

end Network

end DvSpec.Consensus
