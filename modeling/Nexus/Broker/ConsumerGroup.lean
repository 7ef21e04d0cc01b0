import Mathlib.Data.List.Sort
import Nexus.Common

/-!
# Consumer groups

`broker/consumer_group.hpp`, `broker/consumer_group.cpp`: the membership state machine of a
consumer group. The map of the members is a list of pairs; its order is never seen, since
`members()` sorts by id. The clock is handed in with each call.
-/

namespace Nexus

abbrev MemberId := String

inductive GroupState
  | empty | preparingRebalance | completingRebalance | stable | dead
  deriving DecidableEq

inductive HeartbeatStatus
  | ok | rebalanceInProgress
  deriving DecidableEq

structure MemberInfo where
  memberId : MemberId
  subscription : List UInt8
  deriving DecidableEq

structure MemberAssignment where
  memberId : MemberId
  assignment : List UInt8
  deriving DecidableEq

structure JoinResult where
  memberId : MemberId
  generation : Int
  leaderId : MemberId
  isLeader : Bool
  /-- Only for the leader in `completingRebalance`. -/
  members : List MemberInfo
  deriving DecidableEq

structure SyncResult where
  generation : Int
  assigned : Bool
  assignment : List UInt8
  deriving DecidableEq

/-- `ConsumerGroup::Member`. -/
structure Member where
  subscription : List UInt8 := []
  assignment : List UInt8 := []
  sessionTimeout : Int := 0
  lastSeen : Int := 0
  joinedRound : Bool := false
  deriving DecidableEq

structure ConsumerGroup where
  groupId : String
  state : GroupState := .empty
  generation : Int := 0
  leaderId : MemberId := ""
  members : List (MemberId × Member) := []
  memberSeq : Nat := 0
  deriving DecidableEq

/-! ## The map of the members -/

/-- The entry of `id`, changed by `f`. -/
def modifyMember (ms : List (MemberId × Member)) (id : MemberId) (f : Member → Member) :
    List (MemberId × Member) :=
  ms.map fun p => if p.1 = id then (p.1, f p.2) else p

/-- `members_[id]`, changed by `f`: an entry that is not there is made first. -/
def upsertMember (ms : List (MemberId × Member)) (id : MemberId) (f : Member → Member) :
    List (MemberId × Member) :=
  if id ∈ ms.map (·.1) then modifyMember ms id f else ms ++ [(id, f {})]

namespace ConsumerGroup

/-- Ids of the members. -/
def ids (g : ConsumerGroup) : List MemberId := g.members.map (·.1)

def contains (g : ConsumerGroup) (memberId : MemberId) : Bool := decide (memberId ∈ g.ids)

/-- `members_.find(memberId)`. -/
def find (g : ConsumerGroup) (memberId : MemberId) : Option Member := g.members.lookup memberId

/-- `ConsumerGroup::members`: sorted by id. -/
def sortedMembers (g : ConsumerGroup) : List MemberInfo :=
  (g.members.map fun p => ⟨p.1, p.2.subscription⟩).insertionSort fun a b => a.memberId ≤ b.memberId

/-! ## The state machine -/

def beginRebalance (g : ConsumerGroup) : ConsumerGroup :=
  { g with
    state := .preparingRebalance
    leaderId := ""
    members := g.members.map fun p => (p.1, { p.2 with joinedRound := false }) }

def completeIfReady (g : ConsumerGroup) : ConsumerGroup :=
  if g.state ≠ .preparingRebalance ∨ g.members = [] then g
  else if ∃ p ∈ g.members, p.2.joinedRound = false then g
  else
    { g with
      state := .completingRebalance
      generation := g.generation + 1
      members := g.members.map fun p => (p.1, { p.2 with assignment := [] }) }

def nextMemberId (g : ConsumerGroup) : MemberId × ConsumerGroup :=
  (g.groupId ++ "-" ++ toString (g.memberSeq + 1), { g with memberSeq := g.memberSeq + 1 })

/-- The part of `join` that changes the group, once the id is known. -/
def enroll (g : ConsumerGroup) (now : Int) (id : MemberId) (subscription : List UInt8)
    (sessionTimeout : Int) : ConsumerGroup :=
  let g := if g.state = .stable ∨ g.state = .empty then g.beginRebalance else g
  let g := { g with
    members := upsertMember g.members id fun m =>
      { m with
        subscription := subscription
        sessionTimeout := sessionTimeout
        lastSeen := now
        joinedRound := true }
    leaderId := if g.leaderId = "" then id else g.leaderId }
  g.completeIfReady

def join (g : ConsumerGroup) (now : Int) (memberId : MemberId) (subscription : List UInt8)
    (sessionTimeout : Int) : Expected JoinResult × ConsumerGroup :=
  if g.state = .dead then (makeError .unsupported "join: el grupo está eliminado", g)
  else
    let (id, g) := if memberId = "" then g.nextMemberId else (memberId, g)
    let g := g.enroll now id subscription sessionTimeout
    (.ok
      { memberId := id
        generation := g.generation
        leaderId := g.leaderId
        isLeader := id = g.leaderId
        members := if id = g.leaderId ∧ g.state = .completingRebalance then g.sortedMembers
          else [] }, g)

/-- The loop of `sync` over the leader's list: an entry for nobody in the group is skipped. -/
def assign (ms : List (MemberId × Member)) (assignments : List MemberAssignment) :
    List (MemberId × Member) :=
  assignments.foldl (fun ms e => modifyMember ms e.memberId fun m =>
    { m with assignment := e.assignment }) ms

def sync (g : ConsumerGroup) (now : Int) (memberId : MemberId) (generation : Int)
    (assignments : List MemberAssignment) : Expected SyncResult × ConsumerGroup :=
  if g.state = .dead then (makeError .unsupported "sync: el grupo está eliminado", g)
  else match g.find memberId with
    | none => (makeError .notFound "sync: miembro desconocido", g)
    | some member =>
      if generation ≠ g.generation then
        (makeError .invalidArgument "sync: generación obsoleta", g)
      else
        let g := { g with members := modifyMember g.members memberId fun m =>
          { m with lastSeen := now } }
        if g.state = .stable then (.ok ⟨g.generation, true, member.assignment⟩, g)
        else if g.state ≠ .completingRebalance then (.ok ⟨g.generation, false, []⟩, g)
        else if memberId = g.leaderId then
          let g := { g with members := assign g.members assignments, state := .stable }
          (.ok ⟨g.generation, true, ((g.find memberId).getD {}).assignment⟩, g)
        else (.ok ⟨g.generation, false, []⟩, g)

def heartbeat (g : ConsumerGroup) (now : Int) (memberId : MemberId) (generation : Int) :
    Expected HeartbeatStatus × ConsumerGroup :=
  if g.state = .dead then (makeError .unsupported "heartbeat: el grupo está eliminado", g)
  else match g.find memberId with
    | none => (makeError .notFound "heartbeat: miembro desconocido", g)
    | some _ =>
      let g := { g with members := modifyMember g.members memberId fun m =>
        { m with lastSeen := now } }
      if g.state = .preparingRebalance ∨ g.state = .completingRebalance then
        (.ok .rebalanceInProgress, g)
      else if generation ≠ g.generation then
        (makeError .invalidArgument "heartbeat: generación obsoleta", g)
      else (.ok .ok, g)

/-- What `leave` and `tick` do once members are gone. -/
def afterRemoval (g : ConsumerGroup) : ConsumerGroup :=
  if g.members = [] then { g with state := .empty, leaderId := "" } else g.beginRebalance

def leave (g : ConsumerGroup) (memberId : MemberId) : Expected Unit × ConsumerGroup :=
  if g.state = .dead then (makeError .unsupported "leave: el grupo está eliminado", g)
  else match g.find memberId with
    | none => (makeError .notFound "leave: miembro desconocido", g)
    | some _ =>
      (.ok (), afterRemoval { g with members := g.members.filter fun p => p.1 ≠ memberId })

def tick (g : ConsumerGroup) (now : Int) : ConsumerGroup :=
  if g.state = .dead then g
  else
    let kept := g.members.filter fun p => ¬ p.2.sessionTimeout < now - p.2.lastSeen
    if kept.length = g.members.length then g
    else afterRemoval { g with members := kept }

/-! ## Runs -/

inductive Call
  | join (now : Int) (memberId : MemberId) (subscription : List UInt8) (sessionTimeout : Int)
  | sync (now : Int) (memberId : MemberId) (generation : Int)
      (assignments : List MemberAssignment)
  | heartbeat (now : Int) (memberId : MemberId) (generation : Int)
  | leave (memberId : MemberId)
  | tick (now : Int)
  deriving DecidableEq

/-- The group after a call. -/
def step (g : ConsumerGroup) : Call → ConsumerGroup
  | .join now id subscription timeout => (g.join now id subscription timeout).2
  | .sync now id generation assignments => (g.sync now id generation assignments).2
  | .heartbeat now id generation => (g.heartbeat now id generation).2
  | .leave id => (g.leave id).2
  | .tick now => g.tick now

/-- The call is the leader's distribution of the assignments: it is the one that makes the group
stable. -/
def Distributes (g : ConsumerGroup) : Call → Prop
  | .sync _ id generation _ => g.state = .completingRebalance ∧ id = g.leaderId ∧ id ∈ g.ids ∧
    generation = g.generation
  | _ => False

instance (g : ConsumerGroup) (c : Call) : Decidable (g.Distributes c) := by
  cases c <;> simp only [Distributes] <;> infer_instance

end ConsumerGroup

end Nexus
