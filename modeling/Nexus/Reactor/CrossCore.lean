import Nexus.Lib.Run
import Nexus.Lib.WaitFor

/-!
# Messages between the cores

`reactor/cross_core.hpp`, `reactor/cross_core.cpp`, `reactor/spsc_queue.hpp`, the loop of
`reactor/reactor.cpp` and `reactor/cross_core_call.hpp`: each core owns one inbox for each core
that posts to it, of bounded size. `post` waits in a loop while the inbox is full, and only the
owner's `drain` makes room, between its handlers.

What a handler computes does not matter here, only what it posts, in order, and what the posted
work will post in turn (`Work`). The state is the interleaving of the cores' steps; an inbox is
the list of the messages in flight (`tail_ - head_` of them).

Cores that wait for each other block for good. A run gets there exactly when a core enters `post`
on a full inbox whose owner, through the waits of other cores, waits for it.
-/

namespace Nexus.CrossCore

open Lib Relation List

variable {n : Nat}

/-- `CrossCoreMailbox::kInboxCapacity`. -/
def kInboxCapacity : Nat := 1024

/-- The work of a message, as the messages that it posts when it runs: target core and work. -/
inductive Work (n : Nat)
  | mk (posts : List (Fin n × Work n))

def Work.posts : Work n → List (Fin n × Work n)
  | .mk posts => posts

/-- `CrossCoreCall::await_suspend`: the message runs `fn` on the target, which posts the resumption
of the caller back; the caller then goes on with `next`. -/
def callOn (self target : Fin n) (next : List (Fin n × Work n)) : Fin n × Work n :=
  (target, .mk [(self, .mk next)])

structure Core (n : Nat) where
  /-- What the handler at work will still post. -/
  handler : List (Fin n × Work n) := []
  /-- The message inside `post`, not pushed yet. -/
  posting : Option (Fin n × Work n) := none
  /-- The inbox that the loop of `drain` is at, `none` outside of `drain`. -/
  drainAt : Option Nat := none

/-- No handler at work. -/
def Core.Idle (k : Core n) : Prop := k.handler.isEmpty = true ∧ k.posting.isNone = true

instance (k : Core n) : Decidable k.Idle := by
  unfold Core.Idle
  infer_instance

/-- All the cores; `inbox t c` is what core `c` posted to core `t` and is in flight. -/
structure Cores (n : Nat) where
  core : Fin n → Core n := fun _ => {}
  inbox : Fin n → Fin n → List (Work n) := fun _ _ => []

namespace Cores

def setCore (s : Cores n) (c : Fin n) (k : Core n) : Cores n :=
  { s with core := Function.update s.core c k }

def setInbox (s : Cores n) (t c : Fin n) (q : List (Work n)) : Cores n :=
  { s with inbox := Function.update s.inbox t (Function.update (s.inbox t) c q) }

/-- The condition of the loop in `post`. -/
def Full (s : Cores n) (t c : Fin n) : Prop := kInboxCapacity ≤ (s.inbox t c).length

instance (s : Cores n) (t c : Fin n) : Decidable (s.Full t c) := by
  unfold Full
  infer_instance

/-- What a core does next. -/
inductive Event (n : Nat)
  /-- Outside of `drain` (`run_ready`, completions, timers), work that posts these messages. -/
  | resume (c : Fin n) (posts : List (Fin n × Work n))
  /-- The handler calls `post` for its next message. -/
  | post (c : Fin n)
  /-- One turn of the loop in `post`: wait, or push. -/
  | poll (c : Fin n)
  /-- One turn of the loops in `drain`. -/
  | drain (c : Fin n)

variable {s : Cores n} {c t : Fin n} {e : Event n} {rest : List (Fin n × Work n)} {k : Core n}
  {w : Work n}

def step (s : Cores n) : Event n → Cores n
  | .resume c posts =>
    if (s.core c).Idle ∧ (s.core c).drainAt = none then
      s.setCore c { s.core c with handler := posts }
    else s
  | .post c =>
    match (s.core c).posting, (s.core c).handler with
    | none, msg :: rest => s.setCore c { s.core c with handler := rest, posting := some msg }
    | _, _ => s
  | .poll c =>
    match (s.core c).posting with
    | none => s
    | some (t, w) =>
      if s.Full t c then s
      else (s.setInbox t c (s.inbox t c ++ [w])).setCore c { s.core c with posting := none }
  | .drain c =>
    if (s.core c).Idle then
      match (s.core c).drainAt with
      | none => s.setCore c { s.core c with drainAt := some 0 }
      | some i =>
        if h : i < n then
          match s.inbox c ⟨i, h⟩ with
          | w :: ws =>
            (s.setInbox c ⟨i, h⟩ ws).setCore c { s.core c with handler := w.posts }
          | [] => s.setCore c { s.core c with drainAt := some (i + 1) }
        else s.setCore c { s.core c with drainAt := none }
    else s

/-- Core `c` is in the loop of `post` on a full inbox of core `t`. -/
def WaitsOn (s : Cores n) (c t : Fin n) : Prop :=
  (∃ w, (s.core c).posting = some (t, w)) ∧ s.Full t c

/-- The event is the call of `post` by core `c` for a message to core `t`. -/
def Enters (s : Cores n) (e : Event n) (c t : Fin n) : Prop :=
  e = .post c ∧ (s.core c).posting = none ∧ ∃ w rest, (s.core c).handler = (t, w) :: rest

/-- A core calls `post` on a full inbox, and the owner waits for that core, perhaps through
others. -/
def ClosesCycle (s : Cores n) (e : Event n) : Prop :=
  ∃ c t, s.Enters e c t ∧ s.Full t c ∧ ReflTransGen s.WaitsOn t c

/-! ## What a step does to the waits -/

@[simp] theorem posting_setCore (s : Cores n) (c : Fin n) (k : Core n) (a : Fin n) :
    ((s.setCore c k).core a).posting = if a = c then k.posting else (s.core a).posting := by
  by_cases ha : a = c
  · subst ha
    simp [setCore]
  · simp [setCore, ha]

@[simp] theorem inbox_setCore (s : Cores n) (c : Fin n) (k : Core n) :
    (s.setCore c k).inbox = s.inbox := rfl

@[simp] theorem inbox_setInbox (s : Cores n) (t c b a : Fin n) (q : List (Work n)) :
    (s.setInbox t c q).inbox b a = if b = t ∧ a = c then q else s.inbox b a := by
  by_cases hb : b = t
  · subst hb
    simp [setInbox, Function.update_apply]
  · simp [setInbox, hb]

theorem posting_of_idle (h : k.Idle) : k.posting = none :=
  Option.isNone_iff_eq_none.mp h.2

/-- A step that leaves the inboxes alone and puts nobody into `post`. -/
theorem waitsOn_setCore {a b : Fin n} (hk : k.posting = none)
    (h : (s.setCore c k).WaitsOn a b) : s.WaitsOn a b := by
  obtain ⟨⟨w, hw⟩, hfull⟩ := h
  rw [posting_setCore] at hw
  by_cases ha : a = c
  · rw [if_pos ha, hk] at hw
    cases hw
  · rw [if_neg ha] at hw
    exact ⟨⟨w, hw⟩, hfull⟩

/-- A step that changes an inbox and leaves its producer outside of `post`, or shortens it. -/
theorem full_of_setInbox {a b : Fin n} {q : List (Work n)}
    (hq : (b = t ∧ a = c) → q.length ≤ (s.inbox t c).length) (h : (s.setInbox t c q).Full b a) :
    s.Full b a := by
  unfold Full at h ⊢
  rw [inbox_setInbox] at h
  split at h
  case isTrue hba =>
    have := hq hba
    rw [hba.1, hba.2]
    omega
  case isFalse => exact h

/-- A core waits after a step only where it waited before, or where it just called `post`. -/
theorem WaitsOn.of_step {a b : Fin n} (h : (s.step e).WaitsOn a b) :
    s.WaitsOn a b ∨ s.Enters e a b ∧ s.Full b a := by
  cases e with
  | resume c posts =>
    refine .inl ?_
    simp only [step] at h
    split at h
    case isTrue hidle =>
      have hnone := posting_of_idle hidle.1
      exact waitsOn_setCore (k := { s.core c with handler := posts }) hnone h
    case isFalse => exact h
  | post c =>
    simp only [step] at h
    split at h
    case h_1 msg rest hposting hhandler =>
      obtain ⟨⟨w, hw⟩, hfull⟩ := h
      rw [posting_setCore] at hw
      by_cases ha : a = c
      · subst ha
        rw [if_pos rfl] at hw
        cases hw
        exact .inr ⟨⟨rfl, hposting, w, rest, hhandler⟩, hfull⟩
      · rw [if_neg ha] at hw
        exact .inl ⟨⟨w, hw⟩, hfull⟩
    case h_2 => exact .inl h
  | poll c =>
    refine .inl ?_
    simp only [step] at h
    split at h
    case h_1 => exact h
    case h_2 t w hposting =>
      split at h
      case isTrue => exact h
      case isFalse =>
        have hac : a ≠ c := by
          rintro rfl
          obtain ⟨⟨w', hw'⟩, -⟩ := h
          simp at hw'
        obtain ⟨hw, hfull⟩ := waitsOn_setCore (k := { s.core c with posting := none }) rfl h
        exact ⟨hw, full_of_setInbox (fun hba => absurd hba.2 hac) hfull⟩
  | drain c =>
    refine .inl ?_
    simp only [step] at h
    split at h
    case isFalse => exact h
    case isTrue hidle =>
      have hnone := posting_of_idle hidle
      split at h
      case h_1 => exact waitsOn_setCore (k := { s.core c with drainAt := some 0 }) hnone h
      case h_2 i _ =>
        split at h
        case isFalse => exact waitsOn_setCore (k := { s.core c with drainAt := none }) hnone h
        case isTrue hi =>
          split at h
          case h_1 w ws hinbox =>
            obtain ⟨hw, hfull⟩ :=
              waitsOn_setCore (k := { s.core c with handler := w.posts }) hnone h
            exact ⟨hw, full_of_setInbox (fun _ => by simp [hinbox]) hfull⟩
          case h_2 =>
            exact waitsOn_setCore (k := { s.core c with drainAt := some (i + 1) }) hnone h

/-- The call of `post` on a full inbox adds a wait and keeps the others. -/
theorem Enters.waitsOn_step (h : s.Enters e c t) (hfull : s.Full t c) :
    (s.step e).WaitsOn c t ∧ ∀ a b, s.WaitsOn a b → (s.step e).WaitsOn a b := by
  obtain ⟨rfl, hposting, w, rest, hhandler⟩ := h
  have hstep : s.step (.post c) =
      s.setCore c { s.core c with handler := rest, posting := some (t, w) } := by
    simp only [step, hposting, hhandler]
  rw [hstep]
  refine ⟨⟨⟨w, by simp⟩, hfull⟩, fun a b => ?_⟩
  rintro ⟨⟨w', hw'⟩, hfull'⟩
  have hac : a ≠ c := by
    rintro rfl
    rw [hposting] at hw'
    cases hw'
  exact ⟨⟨w', by simp [hac, hw']⟩, hfull'⟩

/-- Some cores are in the loop of `post` on full inboxes of each other. -/
def MutuallyBlocked (s : Cores n) : Prop := Blocked s.WaitsOn

theorem mutuallyBlocked_of_closesCycle (h : s.ClosesCycle e) : (s.step e).MutuallyBlocked := by
  obtain ⟨c, t, hent, hfull, hpath⟩ := h
  obtain ⟨hnew, hkeep⟩ := hent.waitsOn_step hfull
  exact blocked_of_path hnew (ReflTransGen.mono hkeep _ _ hpath)

theorem closesCycle_of_mutuallyBlocked (hs : ¬ s.MutuallyBlocked) (h : (s.step e).MutuallyBlocked) :
    s.ClosesCycle e := by
  by_cases hent : ∃ c t, s.Enters e c t ∧ s.Full t c
  · obtain ⟨c, t, hent, hfull⟩ := hent
    refine ⟨c, t, hent, hfull, (Blocked.of_added (fun a b hab => ?_) h).resolve_left hs⟩
    rcases hab.of_step with hab | ⟨⟨he, -, w, rest, hhandler⟩, -⟩
    · exact .inl hab
    · obtain ⟨he', -, w', rest', hhandler'⟩ := hent
      cases he.symm.trans he'
      cases hhandler.symm.trans hhandler'
      exact .inr ⟨rfl, rfl⟩
  · refine absurd (h.mono fun a b hab => ?_) hs
    exact hab.of_step.resolve_right fun hnew => hent ⟨a, b, hnew⟩

theorem not_mutuallyBlocked_new : ¬ ({} : Cores n).MutuallyBlocked := by
  rintro ⟨S, ⟨c, hc⟩, hS⟩
  obtain ⟨t, -, ⟨w, hw⟩, -⟩ := hS c hc
  cases hw

/-! ## What the step of a core leaves alone -/

/-- Nothing but core `c` and what it posted is changed. -/
def Apart (c : Fin n) (s s' : Cores n) : Prop :=
  (∀ a, a ≠ c → s'.core a = s.core a) ∧ ∀ t a, a ≠ c → s'.inbox t a = s.inbox t a

theorem Apart.trans {s' s'' : Cores n} (h : Apart c s s') (h' : Apart c s' s'') : Apart c s s'' :=
  ⟨fun a ha => (h'.1 a ha).trans (h.1 a ha), fun t a ha => (h'.2 t a ha).trans (h.2 t a ha)⟩

theorem apart_setCore (s : Cores n) (c : Fin n) (k : Core n) : Apart c s (s.setCore c k) :=
  ⟨fun a ha => by simp [setCore, ha], fun _ _ _ => rfl⟩

theorem apart_setInbox (s : Cores n) (t c : Fin n) (q : List (Work n)) :
    Apart c s (s.setInbox t c q) :=
  ⟨fun _ _ => rfl, fun t' a ha => by simp [ha]⟩

/-! ## When cores block each other -/

/-- No state of a run has cores that block each other, exactly when no core ever enters `post` on
a full inbox whose owner waits, perhaps through others, for that core. -/
theorem noMutualBlocking_iff (es : List (Event n)) :
    (∀ ds, ds <+: es → ¬ (run step ({} : Cores n) ds).MutuallyBlocked) ↔
      Along step (fun s e => ¬ ClosesCycle s e) {} es := by
  have key : ∀ (s : Cores n), ¬ s.MutuallyBlocked →
      ((∀ ds, ds <+: es → ¬ (run step s ds).MutuallyBlocked) ↔
        Along step (fun s e => ¬ ClosesCycle s e) s es) := by
    induction es with
    | nil =>
      intro s hs
      refine ⟨fun _ => trivial, fun _ ds hds => ?_⟩
      rwa [List.prefix_nil.mp hds]
    | cons e es ih =>
      intro s hs
      constructor
      · intro h
        have hnext := h [e] (by simp)
        refine ⟨fun hcycle => hnext (mutuallyBlocked_of_closesCycle hcycle), ?_⟩
        refine (ih _ hnext).mp fun ds hds => h (e :: ds) ?_
        exact List.cons_prefix_cons.mpr ⟨rfl, hds⟩
      · rintro ⟨hcycle, hrest⟩ ds hds
        rcases List.prefix_cons_iff.mp hds with rfl | ⟨ds', rfl, hds'⟩
        · exact hs
        · have hnext : ¬ (s.step e).MutuallyBlocked :=
            fun hb => hcycle (closesCycle_of_mutuallyBlocked hs hb)
          exact (ih _ hnext).mpr hrest ds' hds'
  exact key {} not_mutuallyBlocked_new

/-! ## Two cores that call each other -/

/-- Core `c` calls `post` for its next message. -/
theorem step_post {msg : Fin n × Work n} (hcore : s.core c = { handler := msg :: rest }) :
    s.step (.post c) = s.setCore c { handler := rest, posting := some msg } := by
  simp only [step, hcore]

/-- There is room for the message. -/
theorem step_poll (hcore : s.core c = { handler := rest, posting := some (t, w) })
    (hroom : ¬ s.Full t c) :
    s.step (.poll c) = (s.setInbox t c (s.inbox t c ++ [w])).setCore c { handler := rest } := by
  simp only [step, hcore, if_neg hroom]

/-- Core `c` posts the same message as long as there is room. -/
theorem run_posts (m : Nat) (hcore : s.core c = { handler := replicate m (t, w) ++ rest })
    (hroom : (s.inbox t c).length + m ≤ kInboxCapacity) :
    let s' := run step s (replicate m [Event.post c, .poll c]).flatten
    s'.core c = { handler := rest } ∧ (s'.inbox t c).length = (s.inbox t c).length + m ∧
      Apart c s s' := by
  induction m generalizing s with
  | zero => exact ⟨hcore, rfl, fun _ _ => rfl, fun _ _ _ => rfl⟩
  | succ m ih =>
    rw [replicate_succ, cons_append] at hcore
    let s₁ := s.setCore c { handler := replicate m (t, w) ++ rest, posting := some (t, w) }
    let s₂ := (s₁.setInbox t c (s₁.inbox t c ++ [w])).setCore c
      { handler := replicate m (t, w) ++ rest }
    have hpost : s.step (.post c) = s₁ := step_post hcore
    have hpoll : s₁.step (.poll c) = s₂ := by
      refine step_poll (by simp [s₁, setCore]) ?_
      unfold Full
      rw [inbox_setCore]
      omega
    have hlen : (s₂.inbox t c).length = (s.inbox t c).length + 1 := by simp [s₂, s₁]
    obtain ⟨hc, hl, hap⟩ := ih (s := s₂) (by simp [s₂, setCore]) (by omega)
    simp only [replicate_succ, flatten_cons, cons_append, nil_append, run_cons,
      hpost, hpoll]
    refine ⟨hc, by omega, ?_⟩
    exact (((apart_setCore s c _).trans (apart_setInbox s₁ t c _)).trans
      (apart_setCore _ c _)).trans hap

/-- Core `c` has one call to core `t` more than its inbox there holds, and makes them all. -/
def overfill (c t : Fin n) : List (Event n) :=
  .resume c (List.replicate kInboxCapacity (callOn c t []) ++ [callOn c t []]) ::
    ((List.replicate kInboxCapacity [.post c, .poll c]).flatten ++ [.post c])

theorem run_overfill (hcore : s.core c = {}) (hinbox : s.inbox t c = []) :
    (run step s (overfill c t)).WaitsOn c t ∧ Apart c s (run step s (overfill c t)) := by
  let calls := replicate kInboxCapacity (callOn c t []) ++ [callOn c t []]
  have hresume : s.step (.resume c calls) = s.setCore c { handler := calls } := by
    simp [step, hcore, Core.Idle]
  have hbegin : (s.setCore c { handler := calls }).core c = { handler := calls } := by
    simp [setCore]
  rw [overfill, run_cons, hresume, run_append]
  obtain ⟨hc, hlen, hap⟩ := run_posts kInboxCapacity hbegin (by simp [hinbox])
  rw [run_cons, run_nil, step_post hc]
  refine ⟨⟨⟨_, by simp; rfl⟩, ?_⟩, ((apart_setCore s c _).trans hap).trans (apart_setCore _ c _)⟩
  unfold Full
  rw [inbox_setCore, hlen]
  omega

/-- Two cores that each have 1025 calls for the other at once wait for each other. -/
theorem mutuallyBlocked_overfill :
    (run step ({} : Cores 2) (overfill 0 1 ++ overfill 1 0)).MutuallyBlocked := by
  obtain ⟨hwait, hcore, hinbox⟩ := run_overfill (s := ({} : Cores 2)) (c := 0) (t := 1) rfl rfl
  obtain ⟨hwait', hcore', hinbox'⟩ := run_overfill (s := run step ({} : Cores 2) (overfill 0 1))
    (c := 1) (t := 0) (hcore 1 (by decide)) (hinbox 0 1 (by decide))
  rw [run_append]
  refine ⟨Set.univ, ⟨0, trivial⟩, fun c _ => ?_⟩
  match c with
  | 0 =>
    refine ⟨1, trivial, ?_, ?_⟩
    · rw [hcore' 0 (by decide)]
      exact hwait.1
    · unfold Full
      rw [hinbox' 1 0 (by decide)]
      exact hwait.2
  | 1 => exact ⟨0, trivial, hwait'⟩

end Cores

end Nexus.CrossCore
