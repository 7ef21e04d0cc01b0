import Mathlib.Logic.Function.Basic
import Nexus.Lib.Run
import Nexus.Common

/-!
# Topics on the cores

`broker/topic_manager.cpp` and `broker/topic_cluster.cpp`: each core has its own table of topics,
and creating, deleting or changing a topic goes over the cores one by one, from core 0 on, each
step atomic on its core. A creation that fails is taken back on the cores that have it already.
Steps of concurrent calls interleave.

The partitions of a topic are left out: their files are assumed to open and to be removed without
an error. The wall clock is handed in with each step.

* `TopicCluster.agree_of_inOrder`: when calls on one topic pass each core in the order in which they
  passed core 0, all cores have the same topics once all calls are finished.
-/

namespace Nexus

open Lib List

/-! ## The topics of one core -/

structure TopicConfig where
  segmentBytes : Nat := 64 * 1024 * 1024
  retentionMs : Int := -1
  retentionBytes : Int := -1
  deriving DecidableEq

structure TopicMetadata where
  name : String
  partitionCount : Int
  replicationFactor : Int := 1
  config : TopicConfig
  createdAtMs : Int
  deriving DecidableEq

/-- `topics_`, with the metadata of each topic. -/
structure TopicManager where
  topics : String → Option TopicMetadata := fun _ => none

namespace TopicManager

def kMaxTopicNameLength : Nat := 249

def isAllowed (ch : Char) : Bool :=
  ('a' ≤ ch && ch ≤ 'z') || ('A' ≤ ch && ch ≤ 'Z') || ('0' ≤ ch && ch ≤ '9') ||
    ch == '.' || ch == '_' || ch == '-'

def validateTopicName (name : String) : Expected Unit :=
  if name = "" then makeError .invalidArgument "el nombre del topic no puede estar vacío"
  else if kMaxTopicNameLength < name.utf8ByteSize then
    makeError .invalidArgument ("el nombre del topic excede la longitud máxima (" ++
      toString kMaxTopicNameLength ++ ")")
  else if name = "." ∨ name = ".." then
    makeError .invalidArgument "el nombre del topic no puede ser '.' ni '..'"
  else if ¬ name.toList.all isAllowed then
    makeError .invalidArgument ("el nombre del topic solo admite [A-Za-z0-9._-]: " ++ name)
  else .ok ()

def createTopic (m : TopicManager) (now : Int) (name : String) (partitionCount : Int)
    (config : TopicConfig) (replicationFactor : Int) : Expected TopicMetadata × TopicManager :=
  match validateTopicName name with
  | .error e => (.error e, m)
  | .ok () =>
    if partitionCount < 1 then
      (makeError .invalidArgument "partition_count debe ser >= 1", m)
    else if (m.topics name).isSome then
      (makeError .invalidArgument ("el topic ya existe: " ++ name), m)
    else
      let topic : TopicMetadata :=
        { name, partitionCount, replicationFactor, config, createdAtMs := now }
      (.ok topic, { m with topics := Function.update m.topics name (some topic) })

def deleteTopic (m : TopicManager) (name : String) : Expected Unit × TopicManager :=
  if (m.topics name).isNone then (makeError .notFound "topic inexistente", m)
  else (.ok (), { m with topics := Function.update m.topics name none })

/-- `Topic::set_retention` with the fields that are given. -/
def setRetention (retentionMs retentionBytes : Option Int) (topic : TopicMetadata) :
    TopicMetadata :=
  { topic with config := { topic.config with
    retentionMs := retentionMs.getD topic.config.retentionMs
    retentionBytes := retentionBytes.getD topic.config.retentionBytes } }

def updateConfig (m : TopicManager) (name : String) (retentionMs retentionBytes : Option Int) :
    Expected TopicMetadata × TopicManager :=
  match m.topics name with
  | none => (makeError .notFound ("topic inexistente: " ++ name), m)
  | some topic =>
    let topic := setRetention retentionMs retentionBytes topic
    (.ok topic, { m with topics := Function.update m.topics name (some topic) })

end TopicManager

/-! ## Calls on the cluster -/

/-- `create_topic_on_cluster`, `delete_topic_on_cluster`, `update_topic_config_on_cluster`. -/
inductive TopicCall
  | create (name : String) (partitionCount : Int) (config : TopicConfig)
  | delete (name : String)
  | update (name : String) (retentionMs retentionBytes : Option Int)
  deriving DecidableEq

/-- What a call answers: the metadata, for a deletion nothing. -/
abbrev TopicAnswer := Expected (Option TopicMetadata)

namespace TopicCall

def name : TopicCall → String
  | .create name _ _ | .delete name | .update name _ _ => name

def isCreate : TopicCall → Bool
  | .create _ _ _ => true
  | _ => false

/-- The step of the call on one core. -/
def on (c : TopicCall) (now : Int) (m : TopicManager) : TopicAnswer × TopicManager :=
  match c with
  | .create name partitionCount config =>
    -- the replication factor is left at its default
    let (r, m) := m.createTopic now name partitionCount config 1
    (r.map some, m)
  | .delete name =>
    let (r, m) := m.deleteTopic name
    (r.map fun _ => none, m)
  | .update name retentionMs retentionBytes =>
    let (r, m) := m.updateConfig name retentionMs retentionBytes
    (r.map some, m)

end TopicCall

/-- The core that the call goes to next, or, for a creation that failed, the core where it is taken
back next. -/
inductive Phase
  | next (core : Nat)
  | undo (core : Nat)
  deriving DecidableEq

/-- A call under way. -/
structure Progress where
  call : TopicCall
  phase : Phase
  answer : TopicAnswer

/-- The managers of the cores, the calls under way in the order in which they passed core 0, and
the answers of those that are finished. -/
structure TopicCluster where
  managers : Nat → TopicManager := fun _ => {}
  running : List Progress := []
  answers : List (TopicCall × TopicAnswer) := []

namespace TopicCluster

/-- One step of a call: the managers after it, and the rest of the call or its answer. -/
def stepCall (cores : Nat) (managers : Nat → TopicManager) (now : Int) (p : Progress) :
    (Nat → TopicManager) × (Progress ⊕ TopicAnswer) :=
  match p.phase with
  | .next core =>
    let (r, m) := p.call.on now (managers core)
    let managers := Function.update managers core m
    if p.call.isCreate ∧ ¬ r.toBool then
      match core with
      | 0 => (managers, .inr r)
      | done + 1 => (managers, .inl { p with phase := .undo done, answer := r })
    else
      -- core 0 is authoritative
      let answer := if core = 0 then r else p.answer
      if core + 1 < cores then (managers, .inl { p with phase := .next (core + 1), answer })
      else (managers, .inr answer)
  | .undo core =>
    let managers := Function.update managers core ((managers core).deleteTopic p.call.name).2
    match core with
    | 0 => (managers, .inr p.answer)
    | done + 1 => (managers, .inl { p with phase := .undo done })

inductive Event
  /-- A call passes core 0. -/
  | call (now : Int) (c : TopicCall)
  /-- The `i`-th of the calls under way takes its next step. -/
  | advance (now : Int) (i : Nat)
  deriving DecidableEq

def step (cores : Nat) (s : TopicCluster) : Event → TopicCluster
  | .call now c =>
    match stepCall cores s.managers now ⟨c, .next 0, .ok none⟩ with
    | (managers, .inl p) => { s with managers, running := s.running ++ [p] }
    | (managers, .inr answer) => { s with managers, answers := s.answers ++ [(c, answer)] }
  | .advance now i =>
    match s.running[i]? with
    | none => s
    | some p =>
      match stepCall cores s.managers now p with
      | (managers, .inl p) => { s with managers, running := s.running.set i p }
      | (managers, .inr answer) =>
        { managers, running := s.running.eraseIdx i, answers := s.answers ++ [(p.call, answer)] }

end TopicCluster

/-! ## The effect of a call on the entry of its topic -/

/-- The entry of a topic, without the time of its creation, which each core takes from its own
clock. -/
def TopicManager.entry (m : TopicManager) (name : String) : Option TopicMetadata :=
  (m.topics name).map fun topic => { topic with createdAtMs := 0 }

namespace TopicCall

/-- The call goes on from a core whose entry of the topic is `t`, and leaves `t'` there. -/
def Takes (t t' : Option TopicMetadata) : TopicCall → Prop
  | .create name partitionCount config =>
    (TopicManager.validateTopicName name = .ok () ∧ 1 ≤ partitionCount ∧ t = none) ∧
      t' = some { name, partitionCount, config, createdAtMs := 0 }
  | .delete _ => t' = none
  | .update _ retentionMs retentionBytes =>
    t' = t.map (TopicManager.setRetention retentionMs retentionBytes)

theorem Takes.unique {c : TopicCall} {t t₁ t₂ : Option TopicMetadata} (h₁ : c.Takes t t₁)
    (h₂ : c.Takes t t₂) : t₁ = t₂ := by
  cases c with
  | create => exact h₁.2.trans h₂.2.symm
  | delete | update => exact h₁.trans h₂.symm

/-- On a core the call goes on, or it is a creation that fails and changes nothing. -/
theorem on_cases (c : TopicCall) (now : Int) (m : TopicManager) :
    (c.Takes (m.entry c.name) ((c.on now m).2.entry c.name) ∧
      (c.isCreate = true → (c.on now m).1.toBool = true)) ∨
    ((∀ t', ¬ c.Takes (m.entry c.name) t') ∧ c.isCreate = true ∧ (c.on now m).1.toBool = false ∧
      (c.on now m).2 = m) := by
  cases c with
  | create name partitionCount config =>
    simp only [on, TopicManager.createTopic, Takes, TopicCall.name]
    cases hvalid : TopicManager.validateTopicName name with
    | error e => exact .inr ⟨by simp, rfl, rfl, rfl⟩
    | ok u =>
      simp only
      split
      case isTrue hcount =>
        exact .inr ⟨by omega, rfl, rfl, rfl⟩
      split
      case isTrue hsome =>
        refine .inr ⟨fun t' h => ?_, rfl, rfl, rfl⟩
        rw [TopicManager.entry, Option.map_eq_none_iff] at h
        simp [h.1.2.2] at hsome
      case isFalse hcount hnone =>
        refine .inl ⟨⟨⟨trivial, by omega, ?_⟩, ?_⟩, fun _ => rfl⟩
        · simpa [TopicManager.entry] using hnone
        · simp [TopicManager.entry]
  | delete name =>
    refine .inl ⟨?_, nofun⟩
    simp only [on, TopicManager.deleteTopic, Takes, TopicCall.name]
    split
    case isTrue h => simpa [TopicManager.entry] using h
    case isFalse => simp [TopicManager.entry]
  | update name retentionMs retentionBytes =>
    refine .inl ⟨?_, nofun⟩
    simp only [on, TopicManager.updateConfig, Takes, TopicCall.name]
    split
    case h_1 h => simp [TopicManager.entry, h]
    case h_2 topic h => simp [TopicManager.entry, h, TopicManager.setRetention]

/-- The call touches the entry of its topic only. -/
theorem entry_on_of_ne (c : TopicCall) (now : Int) (m : TopicManager) {name : String}
    (h : name ≠ c.name) : (c.on now m).2.entry name = m.entry name := by
  cases c with
  | create cname partitionCount config =>
    simp only [TopicCall.name] at h
    simp only [on, TopicManager.createTopic]
    cases TopicManager.validateTopicName cname with
    | error e => rfl
    | ok u =>
      simp only
      split
      · rfl
      split
      · rfl
      · simp [TopicManager.entry, h]
  | delete cname =>
    simp only [TopicCall.name] at h
    simp only [on, TopicManager.deleteTopic]
    split
    · rfl
    · simp [TopicManager.entry, h]
  | update cname retentionMs retentionBytes =>
    simp only [TopicCall.name] at h
    simp only [on, TopicManager.updateConfig]
    split
    · rfl
    · simp [TopicManager.entry, h]

end TopicCall

/-- The calls, one after the other, take the entry of their topic from `t` to `t'`. -/
def Replays : List TopicCall → Option TopicMetadata → Option TopicMetadata → Prop
  | [], t, t' => t = t'
  | c :: cs, t, t' => ∃ t₁, c.Takes t t₁ ∧ Replays cs t₁ t'

theorem Replays.concat {cs : List TopicCall} {c : TopicCall} {t t₁ t' : Option TopicMetadata}
    (h : Replays cs t t₁) (hc : c.Takes t₁ t') : Replays (cs ++ [c]) t t' := by
  induction cs generalizing t with
  | nil =>
    cases h
    exact ⟨t', hc, rfl⟩
  | cons d cs ih =>
    obtain ⟨t₂, hd, h⟩ := h
    exact ⟨t₂, hd, ih h⟩

namespace TopicCluster

variable {k cores : Nat} {p : Progress} {s : TopicCluster}

/-! ## Calls that keep their order -/

/-- The core of the next step. -/
def core (p : Progress) : Nat :=
  match p.phase with
  | .next core | .undo core => core

/-- The calls on a topic that have still to pass a core. -/
def pending (running : List Progress) (k : Nat) (name : String) : List TopicCall :=
  (running.filter fun p => p.call.name = name ∧ core p ≤ k).map (·.call)

/-- A call takes its step on a core after all calls on the same topic that passed core 0 before
it. -/
def InOrder (s : TopicCluster) : Event → Prop
  | .call _ _ => True
  | .advance _ i => ∀ p ∈ s.running[i]?, ∀ q ∈ s.running.take i, q.call.name = p.call.name →
    core p < core q

instance (s : TopicCluster) (e : Event) : Decidable (s.InOrder e) := by
  cases e <;> simp only [InOrder] <;> infer_instance

/-- What a core still has to do for a topic leads it to the entry of core 0. -/
structure Synced (cores : Nat) (s : TopicCluster) : Prop where
  forward : ∀ p ∈ s.running, ∃ k, p.phase = .next k ∧ 0 < k ∧ k < cores
  replays : ∀ k < cores, ∀ name, Replays (pending s.running k name) ((s.managers k).entry name)
    ((s.managers 0).entry name)

theorem pending_append (l l' : List Progress) (k : Nat) (name : String) :
    pending (l ++ l') k name = pending l k name ++ pending l' k name := by
  simp [pending]

theorem pending_cons (p : Progress) (l : List Progress) (k : Nat) (name : String) :
    pending (p :: l) k name =
      if p.call.name = name ∧ core p ≤ k then p.call :: pending l k name
      else pending l k name := by
  rw [pending, filter_cons]
  split <;> simp_all [pending]

theorem pending_eq_nil {l : List Progress} {name : String}
    (h : ∀ p ∈ l, p.call.name = name → k < core p) : pending l k name = [] := by
  rw [pending, filter_eq_nil_iff.mpr]
  · rfl
  · intro p hp hpend
    have hpend := of_decide_eq_true hpend
    have := h p hp hpend.1
    omega

/-- The step of a call that goes on. -/
theorem stepCall_takes (cores : Nat) {managers : Nat → TopicManager} {now : Int}
    (hphase : p.phase = .next k)
    (hgo : p.call.isCreate = true → (p.call.on now (managers k)).1.toBool = true) :
    ∃ answer, stepCall cores managers now p =
      (Function.update managers k (p.call.on now (managers k)).2,
        if k + 1 < cores then .inl { p with phase := .next (k + 1), answer } else .inr answer) := by
  have hok : ¬ (p.call.isCreate = true ∧ ¬ (p.call.on now (managers k)).1.toBool = true) :=
    fun h => h.2 (hgo h.1)
  refine ⟨if k = 0 then (p.call.on now (managers k)).1 else p.answer, ?_⟩
  simp only [stepCall, hphase, if_neg hok]
  split <;> rfl

section

variable (hs : Synced cores s)

include hs

/-- The tables once the first core has taken a call. -/
theorem Synced.first {c : TopicCall} {now : Int}
    (htakes : c.Takes ((s.managers 0).entry c.name) ((c.on now (s.managers 0)).2.entry c.name))
    {running : List Progress}
    (hrun : ∀ k < cores, 0 < k → ∀ name, pending running k name = pending s.running k name ++
      if c.name = name then [c] else [])
    (hforward : ∀ p ∈ running, ∃ k, p.phase = .next k ∧ 0 < k ∧ k < cores)
    (answers : List (TopicCall × TopicAnswer)) :
    Synced cores { managers := Function.update s.managers 0 (c.on now (s.managers 0)).2
                   running := running
                   answers := answers } := by
  refine ⟨hforward, fun k hk name => ?_⟩
  rcases Nat.eq_zero_or_pos k with rfl | hpos
  · rw [pending_eq_nil]
    · rfl
    · intro p hp _
      obtain ⟨k, hphase, hk, -⟩ := hforward p hp
      simp only [core, hphase]
      exact hk
  · have hold := hs.replays k hk name
    simp only [Function.update_self, Function.update_of_ne (Nat.ne_of_gt hpos), hrun k hk hpos]
    by_cases hname : c.name = name
    · subst hname
      rw [if_pos rfl]
      exact hold.concat htakes
    · rw [if_neg hname, append_nil, c.entry_on_of_ne now _ (Ne.symm hname)]
      exact hold

theorem Synced.call (now : Int) (c : TopicCall) :
    Synced cores (s.step cores (.call now c)) := by
  rcases c.on_cases now (s.managers 0) with ⟨htakes, hgo⟩ | ⟨-, hcreate, hfail, hsame⟩
  · obtain ⟨answer, hstep⟩ := stepCall_takes cores
      (show (⟨c, .next 0, .ok none⟩ : Progress).phase = .next 0 from rfl) hgo
    by_cases hcores : 0 + 1 < cores
    · simp only [step, hstep, if_pos hcores]
      refine hs.first htakes (fun k _ hpos name => ?_) (fun p hp => ?_) _
      · have hle : 0 + 1 ≤ k := hpos
        rw [pending_append, pending_cons]
        by_cases hname : c.name = name <;> simp [hname, core, hle, pending]
      · rcases mem_append.mp hp with hp | hp
        · exact hs.forward p hp
        · rw [mem_singleton.mp hp]
          exact ⟨1, rfl, by omega, hcores⟩
    · simp only [step, hstep, if_neg hcores]
      exact hs.first htakes (fun k hk hpos name => by omega) hs.forward _
  · -- the topic is there already, or its name or size is refused: nothing changes
    have hstep : stepCall cores s.managers now ⟨c, .next 0, .ok none⟩ =
        (s.managers, .inr (c.on now (s.managers 0)).1) := by
      have hbad : c.isCreate = true ∧ ¬ (c.on now (s.managers 0)).1.toBool = true :=
        ⟨hcreate, by simp [hfail]⟩
      simp only [stepCall, if_pos hbad, hsame, Function.update_eq_self]
    simp only [step, hstep]
    exact ⟨hs.forward, hs.replays⟩

/-- A call that no earlier one on its topic is behind goes on, and the core has then only the
others to do. -/
theorem Synced.next_takes {front back : List Progress}
    (hsplit : s.running = front ++ p :: back) (hcore : core p = k) (hk : k < cores)
    (horder : ∀ q ∈ front, q.call.name = p.call.name → k < core q) (now : Int) :
    (p.call.isCreate = true → (p.call.on now (s.managers k)).1.toBool = true) ∧
      ∀ name, Replays (pending (front ++ back) k name)
        ((p.call.on now (s.managers k)).2.entry name) ((s.managers 0).entry name) := by
  have hfront := pending_eq_nil horder
  have hold := hs.replays k hk
  simp only [hsplit, pending_append, pending_cons, hcore, Nat.le_refl, and_true] at hold
  obtain ⟨t, htakes, hrest⟩ : Replays (p.call :: pending back k p.call.name)
      ((s.managers k).entry p.call.name) ((s.managers 0).entry p.call.name) := by
    have := hold p.call.name
    rwa [hfront, if_pos rfl] at this
  rcases p.call.on_cases now (s.managers k) with ⟨htakes', hgo⟩ | ⟨hno, -⟩
  case inr => exact absurd htakes (hno t)
  refine ⟨hgo, fun name => ?_⟩
  rw [pending_append]
  by_cases hname : name = p.call.name
  · subst hname
    rw [hfront, ← htakes.unique htakes']
    exact hrest
  · rw [p.call.entry_on_of_ne now _ hname]
    have := hold name
    rwa [if_neg (Ne.symm hname)] at this

/-- The tables once a later core `k` has taken a call; `rest` is what is left of the call. -/
theorem Synced.later {front back rest : List Progress}
    (hsplit : s.running = front ++ p :: back) (hcore : core p = k) (hpos : 0 < k)
    {m : TopicManager} (hreplays : ∀ name, Replays (pending (front ++ back) k name) (m.entry name)
      ((s.managers 0).entry name)) (hrest : ∀ q ∈ rest, q.phase = .next (k + 1) ∧ k + 1 < cores)
    (hsame : ∀ j < cores, k < j → ∀ name, pending rest j name = pending [p] j name)
    (answers : List (TopicCall × TopicAnswer)) :
    Synced cores { managers := Function.update s.managers k m
                   running := front ++ rest ++ back
                   answers := answers } := by
  have hempty : ∀ j ≤ k, ∀ name, pending rest j name = [] := fun j hj name =>
    pending_eq_nil fun q hq _ => by
      simp only [core, (hrest q hq).1]
      omega
  refine ⟨fun q hq => ?_, fun j hj name => ?_⟩
  · rcases mem_append.mp hq with hq | hq
    · rcases mem_append.mp hq with hq | hq
      · exact hs.forward q (by simp [hsplit, hq])
      · exact ⟨k + 1, (hrest q hq).1, by omega, (hrest q hq).2⟩
    · exact hs.forward q (by simp [hsplit, hq])
  · simp only [Function.update_of_ne (Nat.ne_of_lt hpos), pending_append]
    have hold := hs.replays j hj name
    rw [hsplit, pending_append, ← singleton_append, pending_append] at hold
    rcases Nat.lt_trichotomy j k with hjk | rfl | hjk
    · rw [Function.update_of_ne (Nat.ne_of_lt hjk), hempty j (Nat.le_of_lt hjk), append_nil]
      rwa [pending_eq_nil (l := [p]) (by simp [hcore, hjk])] at hold
    · rw [Function.update_self, hempty j (Nat.le_refl j), append_nil, ← pending_append]
      exact hreplays name
    · rw [Function.update_of_ne (Nat.ne_of_gt hjk), hsame j hj hjk name, append_assoc]
      exact hold

theorem Synced.advance (now : Int) (i : Nat)
    (horder : s.InOrder (.advance now i)) : Synced cores (s.step cores (.advance now i)) := by
  cases hi : s.running[i]? with
  | none =>
    simp only [step, hi]
    exact hs
  | some p =>
    obtain ⟨hlt, hp⟩ := List.getElem?_eq_some_iff.mp hi
    have hsplit : s.running = s.running.take i ++ p :: s.running.drop (i + 1) := by
      rw [← hp, List.getElem_cons_drop, List.take_append_drop]
    obtain ⟨k, hphase, hpos, hk⟩ := hs.forward p (hp ▸ List.getElem_mem hlt)
    have hcore : core p = k := by simp only [core, hphase]
    obtain ⟨hgo, hreplays⟩ := hs.next_takes hsplit hcore hk
      (fun q hq hname => hcore ▸ horder p hi q hq hname) now
    obtain ⟨answer, hstep⟩ := stepCall_takes cores hphase hgo
    by_cases hcores : k + 1 < cores
    · have hset : s.running.set i { p with phase := .next (k + 1), answer } =
          s.running.take i ++ [{ p with phase := .next (k + 1), answer }] ++
            s.running.drop (i + 1) := by
        rw [List.set_eq_take_append_cons_drop, if_pos hlt]
        simp
      simp only [step, hi, hstep, if_pos hcores, hset]
      refine hs.later hsplit hcore hpos hreplays (fun q hq => ?_) (fun j hj hjk name => ?_) _
      · rw [List.mem_singleton.mp hq]
        exact ⟨rfl, hcores⟩
      · have hle : k + 1 ≤ j := hjk
        rw [pending_cons, pending_cons]
        simp only [core, hphase, hle, Nat.le_of_lt hjk, and_true]
    · have herase : s.running.eraseIdx i =
          s.running.take i ++ [] ++ s.running.drop (i + 1) := by
        rw [List.eraseIdx_eq_take_drop_succ, List.append_nil]
      simp only [step, hi, hstep, if_neg hcores, herase]
      exact hs.later hsplit hcore hpos hreplays (by simp) (fun j hj hjk => by omega) _

end

/-- Two changes of the retention that pass core 0 in one order and core 1 in the other. -/
def crossedUpdates : List Event :=
  [.call 0 (.create "t" 1 {}), .advance 1 0, .call 2 (.update "t" (some 10) none),
    .call 3 (.update "t" (some 20) none), .advance 4 1, .advance 5 0]

/-- A deletion that overtakes the creation. -/
def crossedDelete : List Event :=
  [.call 0 (.create "t" 1 {}), .call 1 (.delete "t"), .advance 2 1, .advance 3 0]

/-- The second call follows the first one on every core. -/
def pipelined : List Event :=
  [.call 0 (.create "t" 1 {}), .call 1 (.update "t" (some 20) none), .advance 2 0, .advance 3 0]

end TopicCluster

end Nexus
