import Nexus.Broker.CoordinatorRuns

/-!
# The identities of transactional producers

`init_producer_id` answers each transactional id with an identity, a producer id and an epoch.
Fencing goes by producer id: a call is refused when its epoch is below the highest one that was
handed out for its producer id. When the epochs of a producer id are exhausted, the transactional
id goes on with a new producer id, and nothing fences the last identity of the old one.

`Registry` is the coordinator with the identities handed out so far, and `Registry.Issued` is what
holds of them in every run that uses no other identity.
-/

namespace Nexus

open Lib List

namespace TransactionCoordinator

variable {c : TransactionCoordinator} {k : Call} {p : ProducerId}

/-- The identity that a producer makes the call with. -/
def Call.identity : Call → Option ProducerIdentity
  | .begin _ p epoch | .addPartitions _ p epoch _ | .commit _ p epoch | .abort _ p epoch =>
    some ⟨p, epoch⟩
  | _ => none

/-- What the coordinator keeps about identities. -/
def registered (c : TransactionCoordinator) :
    ProducerId × AList (fun _ : String => ProducerIdentity) × AList (fun _ : ProducerId => Int) :=
  (c.nextProducerId, c.identities, c.currentEpoch)

theorem registered_enterPrepare (c : TransactionCoordinator) (t : TransactionMetadata)
    (d : ControlRecordType) (now : Int) : (c.enterPrepare t d now).registered = c.registered := by
  rw [enterPrepare_eq]
  rfl

theorem registered_abortOngoing (c : TransactionCoordinator) (p : ProducerId) (now : Int) :
    (c.abortOngoing p now).registered = c.registered := by
  unfold abortOngoing
  split
  · split
    · exact registered_enterPrepare ..
    · rfl
  · rfl

theorem registered_turns
    (g : TransactionMetadata → Option (TransactionMetadata × ControlRecordType))
    (c : TransactionCoordinator) (ps : List ProducerId) :
    (ps.foldl (turn g) c).registered = c.registered := by
  induction ps generalizing c with
  | nil => rfl
  | cons p ps ih =>
    rw [foldl_cons, ih]
    unfold turn
    split <;> rfl

theorem registered_endTxn (d : ControlRecordType) (message : String) (now : Int) (epoch : Int) :
    (c.orSame (c.endTxn d message now p epoch)).registered = c.registered := by
  unfold endTxn
  cases c.require p epoch with
  | error e => rfl
  | ok t =>
    simp only [bind, Except.bind]
    split
    · rfl
    · exact registered_enterPrepare ..

theorem registered_step (hinit : ∀ now tid, k ≠ .initProducerId now tid)
    (hbegin : ∀ now p epoch, k ≠ .begin now p epoch) : (c.step k).registered = c.registered := by
  cases k with
  | initProducerId now tid => exact absurd rfl (hinit now tid)
  | «begin» now p epoch => exact absurd rfl (hbegin now p epoch)
  | setCoordinatorEpoch | takePendingMarkers => rfl
  | addPartitions now p epoch qs =>
    change (c.orSame (c.addPartitions now p epoch qs)).registered = _
    unfold addPartitions
    cases c.require p epoch with
    | error e => rfl
    | ok t =>
      simp only [bind, Except.bind]
      split <;> rfl
  | commit now p epoch => exact registered_endTxn ..
  | abort now p epoch => exact registered_endTxn ..
  | onMarkerWritten p epoch q =>
    change (c.onMarkerWritten p epoch q).registered = _
    unfold onMarkerWritten
    split
    · rfl
    split
    · rfl
    split <;> rfl
  | tick now =>
    change (c.tick now).registered = _
    rw [tick_eq, registered_turns]
  | resumePending =>
    change c.resumePending.registered = _
    rw [resumePending_eq, registered_turns]

/-- The identity that `init_producer_id` hands out, and what it registers: the next producer id
where there is no identity yet or its epochs are exhausted, and the next epoch otherwise. -/
theorem registered_initProducerId (now : Int) (tid : String) :
    ∃ next, (c.initProducerId now tid).1.registered = (next,
        c.identities.insert tid (c.initProducerId now tid).2,
        c.currentEpoch.insert (c.initProducerId now tid).2.producerId
          (c.initProducerId now tid).2.producerEpoch) ∧
      ((∀ id, c.identities.lookup tid = some id → id.producerEpoch = kMaxProducerEpoch) ∧
          (c.initProducerId now tid).2 = ⟨c.nextProducerId, 0⟩ ∧ next = c.nextProducerId + 1 ∨
        ∃ id, c.identities.lookup tid = some id ∧ id.producerEpoch ≠ kMaxProducerEpoch ∧
          (c.initProducerId now tid).2 = ⟨id.producerId, id.producerEpoch + 1⟩ ∧
          next = c.nextProducerId) := by
  unfold initProducerId
  cases hid : c.identities.lookup tid with
  | none => exact ⟨_, rfl, .inl ⟨fun _ h => (nomatch h), rfl, rfl⟩⟩
  | some id =>
    have hab := registered_abortOngoing c id.producerId now
    simp only [registered, Prod.mk.injEq] at hab
    dsimp only
    split
    · rename_i hmax
      refine ⟨c.nextProducerId + 1, by simp [registered, hab], .inl ⟨fun _ h => ?_, ?_, rfl⟩⟩
      · cases h
        exact hmax
      · rw [hab.1]
    · rename_i hmax
      exact ⟨c.nextProducerId, by simp [registered, hab], .inr ⟨id, rfl, hmax, rfl, rfl⟩⟩

/-- Every call with the identity fails and changes nothing. -/
def Refuses (c : TransactionCoordinator) (id : ProducerIdentity) : Prop :=
  ∀ k : Call, k.identity = some id →
    (∃ e, c.result k = some (.error e)) ∧ c.step k = c

/-- A call is refused for its epoch, or because the transaction of the epoch is already decided. -/
theorem refuses_iff {id : ProducerIdentity} : c.Refuses id ↔
    c.fencedBy id.producerId id.producerEpoch = true ∨
      ∃ t, c.txns.lookup id.producerId = some t ∧ t.producerEpoch = id.producerEpoch ∧
        isPrepared t.state = true := by
  obtain ⟨p, epoch⟩ := id
  constructor
  · intro h
    by_contra hno
    push Not at hno
    obtain ⟨hfence, hprep⟩ := hno
    obtain ⟨⟨e, hbegin⟩, -⟩ := h (.begin 0 p epoch) rfl
    obtain ⟨⟨e', hcommit⟩, -⟩ := h (.commit 0 p epoch) rfl
    simp only [result, Option.some_inj] at hbegin hcommit
    rw [TransactionCoordinator.begin, if_neg hfence] at hbegin
    split at hbegin
    · -- the transaction of this epoch is open, so it can be committed
      rename_i hin
      obtain ⟨t, ht, he, hc, ha⟩ : ∃ t, c.txns.lookup p = some t ∧ epoch = t.producerEpoch ∧
          t.state ≠ .completeCommit ∧ t.state ≠ .completeAbort := by
        simpa [inProgress, Option.any_eq_true] using hin
      have ho : t.state = .ongoing := by
        have hnp := hprep t ht he.symm
        cases hs : t.state <;> simp_all [isPrepared]
      have hreq : c.require p epoch = .ok t := by
        rw [require, if_neg hfence, ht]
        simp [he]
      simp [commit, endTxn, hreq, ho, bind, Except.bind] at hcommit
    · cases hbegin
  · intro h
    have hreq : ∀ t, c.require p epoch = .ok t → t.state ≠ .ongoing := fun t ht ho => by
      rcases h with hf | ⟨u, hu, -, hp⟩
      · simp [require, hf, makeError] at ht
      · cases (require_ok ht).1.symm.trans hu
        rw [ho] at hp
        cases hp
    have herr : ∀ {d message now}, ∃ e, c.endTxn d message now p epoch = .error e := by
      intro d message now
      unfold endTxn
      cases hr : c.require p epoch with
      | error e => exact ⟨e, rfl⟩
      | ok t => exact ⟨_, if_pos (hreq t hr)⟩
    have hbegin : ∀ now, ∃ e, c.begin now p epoch = .error e := by
      intro now
      unfold TransactionCoordinator.begin
      rcases h with hf | ⟨t, ht, he, hp⟩
      · exact ⟨_, if_pos hf⟩
      · split
        · exact ⟨_, rfl⟩
        · refine ⟨_, if_pos ?_⟩
          simp only [inProgress, ht, Option.any_some, decide_eq_true_eq]
          refine ⟨he.symm, fun hs => ?_, fun hs => ?_⟩ <;> rw [hs] at hp <;> cases hp
    intro k hk
    suffices hres : ∃ e, c.result k = some (.error e) from
      ⟨hres, step_of_error hres.choose_spec⟩
    cases k with
    | «begin» now r e => cases hk; exact (hbegin now).imp fun _ h => congrArg some h
    | commit now r e => cases hk; exact herr.imp fun _ h => congrArg some h
    | abort now r e => cases hk; exact herr.imp fun _ h => congrArg some h
    | addPartitions now r e qs =>
      cases hk
      simp only [result, addPartitions]
      cases hr : c.require p epoch with
      | error e => exact ⟨e, rfl⟩
      | ok t => exact ⟨_, congrArg some (if_pos (hreq t hr))⟩
    | _ => cases hk

end TransactionCoordinator

open TransactionCoordinator

structure Registry where
  coordinator : TransactionCoordinator
  /-- The identities handed out, each with its transactional id. -/
  handed : List (String × ProducerIdentity) := []

namespace Registry

def start (coordinatorEpoch txnTimeout : Int) : Registry :=
  { coordinator := fresh coordinatorEpoch txnTimeout }

variable (s : Registry)

def handOut : Call → List (String × ProducerIdentity)
  | .initProducerId now tid => [(tid, (s.coordinator.initProducerId now tid).2)]
  | _ => []

def step (k : Call) : Registry :=
  { coordinator := s.coordinator.step k, handed := s.handed ++ s.handOut k }

/-- Producers use the identities that were handed out. -/
def honest (k : Call) : Bool :=
  k.identity.all fun id => s.handed.any fun x => x.2 = id

/-- The identities handed out for a transactional id are the one in force and older ones, which
have lower epochs of its producer id, or a producer id with no epoch left. -/
structure Issued : Prop where
  bounds : ∀ tid id, (tid, id) ∈ s.handed →
    id.producerId < s.coordinator.nextProducerId ∧ id.producerEpoch ≤ kMaxProducerEpoch
  force : ∀ tid cur, s.coordinator.identities.lookup tid = some cur → (tid, cur) ∈ s.handed ∧
    s.coordinator.currentEpoch.lookup cur.producerId = some cur.producerEpoch
  older : ∀ tid id, (tid, id) ∈ s.handed →
    ∃ cur, s.coordinator.identities.lookup tid = some cur ∧
      (id.producerId = cur.producerId ∧ id.producerEpoch ≤ cur.producerEpoch ∨
        id.producerId ≠ cur.producerId ∧
          s.coordinator.currentEpoch.lookup id.producerId = some kMaxProducerEpoch)
  owner : ∀ tid id tid' id', (tid, id) ∈ s.handed → (tid', id') ∈ s.handed →
    id.producerId = id'.producerId → tid = tid'
  distinct : (s.handed.map Prod.snd).Nodup

variable {s}

theorem issued_start (epoch timeout : Int) : (start epoch timeout).Issued :=
  ⟨fun _ _ h => (nomatch h), fun _ _ h => (nomatch h), fun _ _ h => (nomatch h),
    fun _ _ _ _ h => (nomatch h), .nil⟩

section

variable (h : s.Issued)

include h

/-- The epoch in force for a producer id is at least that of every identity of it. -/
theorem Issued.current {tid : String} {id : ProducerIdentity}
    (hid : (tid, id) ∈ s.handed) : ∃ e, id.producerEpoch ≤ e ∧
      s.coordinator.currentEpoch.lookup id.producerId = some e := by
  obtain ⟨cur, hcur, ⟨hp, he⟩ | ⟨-, hmax⟩⟩ := h.older tid id hid
  · exact ⟨_, he, hp ▸ (h.force tid cur hcur).2⟩
  · exact ⟨_, (h.bounds tid id hid).2, hmax⟩

/-- The new identity among those handed out before: a higher epoch of its producer id, and the
others of its transactional id have no epoch left. -/
theorem Issued.handOut_newer (now : Int) (tid : String) :
    let id := (s.coordinator.initProducerId now tid).2
    let next := (s.coordinator.initProducerId now tid).1.nextProducerId
    (id.producerId < next ∧ id.producerEpoch ≤ kMaxProducerEpoch ∧
      s.coordinator.nextProducerId ≤ next) ∧
    (∀ tid' id', (tid', id') ∈ s.handed → id'.producerId = id.producerId →
      tid' = tid ∧ id'.producerEpoch < id.producerEpoch) ∧
    ∀ id', (tid, id') ∈ s.handed → id'.producerId ≠ id.producerId →
      s.coordinator.currentEpoch.lookup id'.producerId = some kMaxProducerEpoch := by
  intro id next
  obtain ⟨n, hreg, hcase⟩ := registered_initProducerId (c := s.coordinator) now tid
  obtain rfl : next = n := congrArg Prod.fst hreg
  rcases hcase with ⟨hlast, hid, hnext⟩ | ⟨cur, hcur, hmax, hid, hnext⟩
  · have hid : id = ⟨s.coordinator.nextProducerId, 0⟩ := hid
    have hnext : next = s.coordinator.nextProducerId + 1 := hnext
    rw [hid, hnext]
    refine ⟨⟨Int.lt_succ _, by simp [kMaxProducerEpoch], Int.le_of_lt (Int.lt_succ _)⟩,
      fun tid' id' hmem hp => ?_, fun id' hmem _ => ?_⟩
    · exact absurd hp (h.bounds tid' id' hmem).1.ne
    · obtain ⟨cur, hcur, ⟨hp, -⟩ | ⟨-, hmax⟩⟩ := h.older tid id' hmem
      · rw [hp, (h.force tid cur hcur).2, hlast cur hcur]
      · exact hmax
  · have hid : id = ⟨cur.producerId, cur.producerEpoch + 1⟩ := hid
    have hnext : next = s.coordinator.nextProducerId := hnext
    obtain ⟨hmem, -⟩ := h.force tid cur hcur
    obtain ⟨hpid, hepoch⟩ := h.bounds tid cur hmem
    rw [hid, hnext]
    refine ⟨⟨hpid, by dsimp only; omega, le_refl _⟩, fun tid' id' hmem' hp => ?_,
      fun id' hmem' hp => ?_⟩
    · obtain rfl := h.owner tid' id' tid cur hmem' hmem hp
      obtain ⟨cur', hcur', hold⟩ := h.older tid' id' hmem'
      cases hcur.symm.trans hcur'
      rcases hold with ⟨-, hle⟩ | ⟨hne, -⟩
      · exact ⟨rfl, by dsimp only; omega⟩
      · exact absurd hp hne
    · obtain ⟨cur', hcur', hold⟩ := h.older tid id' hmem'
      cases hcur.symm.trans hcur'
      exact (hold.resolve_left fun h => hp h.1).2

theorem Issued.init (now : Int) (tid : String) :
    (s.step (.initProducerId now tid)).Issued := by
  obtain ⟨⟨hpid, hepoch, hle⟩, hsame, hrest⟩ := h.handOut_newer now tid
  obtain ⟨next, hreg, -⟩ := registered_initProducerId (c := s.coordinator) now tid
  generalize hs : s.step (.initProducerId now tid) = s'
  have hhanded : s'.handed = s.handed ++ [(tid, (s.coordinator.initProducerId now tid).2)] := by
    rw [← hs]; rfl
  have hc : s'.coordinator = (s.coordinator.initProducerId now tid).1 := by rw [← hs]; rfl
  rw [← hc] at hreg hpid hle
  generalize (s.coordinator.initProducerId now tid).2 = id at *
  simp only [registered, Prod.mk.injEq] at hreg
  obtain ⟨-, hids, hcur⟩ := hreg
  have hkeep : ∀ tid' id', (tid', id') ∈ s.handed → tid' ≠ tid →
      s'.coordinator.currentEpoch.lookup id'.producerId =
        s.coordinator.currentEpoch.lookup id'.producerId := fun tid' id' hmem hne => by
    rw [hcur, AList.lookup_insert_ne fun heq => hne (hsame tid' id' hmem heq).1]
  refine ⟨fun tid' id' hmem => ?_, fun tid' cur' hcur' => ?_, fun tid' id' hmem => ?_,
    fun tid₁ id₁ tid₂ id₂ h₁ h₂ hp => ?_, ?_⟩
  · rw [hhanded, mem_append, mem_singleton, Prod.mk.injEq] at hmem
    rcases hmem with hmem | ⟨-, rfl⟩
    · exact ⟨(h.bounds tid' id' hmem).1.trans_le hle, (h.bounds tid' id' hmem).2⟩
    · exact ⟨hpid, hepoch⟩
  · rw [hids] at hcur'
    rw [hhanded]
    by_cases heq : tid' = tid
    · subst heq
      rw [AList.lookup_insert, Option.some_inj] at hcur'
      subst hcur'
      exact ⟨mem_append_right _ (.head _), by rw [hcur, AList.lookup_insert]⟩
    · rw [AList.lookup_insert_ne heq] at hcur'
      obtain ⟨hmem, hforce⟩ := h.force tid' cur' hcur'
      exact ⟨mem_append_left _ hmem, (hkeep tid' cur' hmem heq).trans hforce⟩
  · rw [hids]
    by_cases heq : tid' = tid
    · subst heq
      rw [hhanded, mem_append, mem_singleton, Prod.mk.injEq] at hmem
      refine ⟨id, AList.lookup_insert _, ?_⟩
      rcases hmem with hmem | ⟨-, rfl⟩
      · by_cases hp : id'.producerId = id.producerId
        · exact .inl ⟨hp, (hsame tid' id' hmem hp).2.le⟩
        · exact .inr ⟨hp, by rw [hcur, AList.lookup_insert_ne hp, hrest id' hmem hp]⟩
      · exact .inl ⟨rfl, le_refl _⟩
    · have hmem : (tid', id') ∈ s.handed := by simpa [hhanded, heq] using hmem
      obtain ⟨cur', hcur', hold⟩ := h.older tid' id' hmem
      refine ⟨cur', (AList.lookup_insert_ne heq).trans hcur', hold.imp_right fun hmax => ?_⟩
      exact ⟨hmax.1, (hkeep tid' id' hmem heq).trans hmax.2⟩
  · rw [hhanded, mem_append, mem_singleton, Prod.mk.injEq] at h₁ h₂
    rcases h₁ with h₁ | ⟨rfl, rfl⟩ <;> rcases h₂ with h₂ | ⟨rfl, rfl⟩
    · exact h.owner tid₁ id₁ tid₂ id₂ h₁ h₂ hp
    · exact (hsame tid₁ id₁ h₁ hp).1
    · exact (hsame tid₂ id₂ h₂ hp.symm).1.symm
    · rfl
  · rw [hhanded, map_append, map_singleton, ← concat_eq_append, nodup_concat]
    refine ⟨fun hmem => ?_, h.distinct⟩
    obtain ⟨⟨tid', id'⟩, hold, heq⟩ := mem_map.mp hmem
    obtain rfl : id' = id := heq
    exact (hsame tid' id' hold rfl).2.ne rfl

/-- The epochs in force are what matters of the coordinator besides its identities. -/
theorem Issued.of_eq {k : Call} (hout : s.handOut k = [])
    (hnext : (s.coordinator.step k).nextProducerId = s.coordinator.nextProducerId)
    (hids : (s.coordinator.step k).identities = s.coordinator.identities)
    (hcur : ∀ p, (s.coordinator.step k).currentEpoch.lookup p =
      s.coordinator.currentEpoch.lookup p) : (s.step k).Issued := by
  have hhanded : (s.step k).handed = s.handed := by rw [step, hout, append_nil]
  obtain ⟨hbounds, hforce, holder, howner, hdistinct⟩ := h
  refine ⟨?_, ?_, ?_, hhanded ▸ howner, hhanded ▸ hdistinct⟩ <;> rw [hhanded] <;>
    simpa only [step, hnext, hids, hcur]

theorem Issued.begin {now epoch : Int} {p : ProducerId}
    (hk : s.honest (.begin now p epoch) = true) : (s.step (.begin now p epoch)).Issued := by
  obtain ⟨⟨tid, id⟩, hmem, hid⟩ : ∃ x ∈ s.handed, x.2 = ⟨p, epoch⟩ := by
    simpa [honest, Call.identity] using hk
  obtain rfl : id = ⟨p, epoch⟩ := hid
  obtain ⟨e, hle, hcur⟩ := h.current hmem
  cases hb : s.coordinator.begin now p epoch with
  | error e =>
    have hstep : s.coordinator.step (.begin now p epoch) = s.coordinator := by
      rw [TransactionCoordinator.step, hb, orSame]
    exact h.of_eq rfl (by rw [hstep]) (by rw [hstep]) fun p => by rw [hstep]
  | ok c' =>
    have hstep : s.coordinator.step (.begin now p epoch) = c' := by
      rw [TransactionCoordinator.step, hb, orSame]
    obtain ⟨-, rfl⟩ := begin_ok hb
    refine h.of_eq rfl (by rw [hstep]; rfl) (by rw [hstep]; rfl) fun r => ?_
    rw [hstep]
    change (s.coordinator.currentEpoch.insert p _).lookup r = _
    by_cases hr : r = p
    · rw [hr, AList.lookup_insert, hcur, Option.getD_some, max_eq_left hle]
    · exact AList.lookup_insert_ne hr

theorem Issued.step {k : Call} (hk : s.honest k = true) : (s.step k).Issued := by
  by_cases hinit : ∃ now tid, k = .initProducerId now tid
  · obtain ⟨now, tid, rfl⟩ := hinit
    exact h.init now tid
  by_cases hbegin : ∃ now p epoch, k = .begin now p epoch
  · obtain ⟨now, p, epoch, rfl⟩ := hbegin
    exact h.begin hk
  push Not at hinit hbegin
  have hreg := registered_step (c := s.coordinator) hinit hbegin
  simp only [registered, Prod.mk.injEq] at hreg
  have hout : s.handOut k = [] := by
    cases k with
    | initProducerId now tid => exact absurd rfl (hinit now tid)
    | _ => rfl
  exact h.of_eq hout hreg.1 hreg.2.1 fun p => by rw [hreg.2.2]

end

/-- In every run that uses only identities that were handed out, no identity is handed out twice,
and every call with an identity that is not in force any more is refused, exactly while its
producer id is still that of its transactional id, its epoch is not the last one, or its last
transaction waits for acknowledgements. -/
theorem superseded_refused_iff (epoch timeout : Int) (ks : List Call)
    (h : Along step (fun s k => s.honest k = true) (start epoch timeout) ks) :
    let s := run step (start epoch timeout) ks
    (s.handed.map Prod.snd).Nodup ∧
    ∀ tid id cur, (tid, id) ∈ s.handed → s.coordinator.identities.lookup tid = some cur →
      id ≠ cur → (s.coordinator.Refuses id ↔
        id.producerId = cur.producerId ∨ id.producerEpoch < kMaxProducerEpoch ∨
        ∃ t, s.coordinator.txns.lookup id.producerId = some t ∧
          t.producerEpoch = id.producerEpoch ∧ isPrepared t.state = true) := by
  intro s
  have hs : s.Issued := run_invariant (fun _ _ hs hk => hs.step hk) (issued_start epoch timeout) h
  refine ⟨hs.distinct, fun tid id cur hid hcur hne => ?_⟩
  rw [refuses_iff, ← or_assoc]
  refine or_congr_left ?_
  obtain ⟨cur', hcur', hold⟩ := hs.older tid id hid
  cases hcur.symm.trans hcur'
  unfold fencedBy
  rcases hold with ⟨hp, hle⟩ | ⟨hp, hmax⟩
  · have hlt : id.producerEpoch ≠ cur.producerEpoch := fun he => by
      cases id; cases cur; simp_all
    rw [hp, (hs.force tid cur hcur).2, Option.any_some, decide_eq_true_eq]
    exact ⟨fun _ => .inl rfl, fun _ => lt_of_le_of_ne hle hlt⟩
  · rw [hmax, Option.any_some, decide_eq_true_eq]
    exact ⟨.inr, fun h => h.resolve_left hp⟩

/-- A second incarnation fences the first. -/
theorem superseded_refused_second :
    (run step (start 0 60000)
      [.initProducerId 0 "app", .initProducerId 0 "app"]).coordinator.Refuses ⟨0, 0⟩ :=
  ((superseded_refused_iff 0 60000 [.initProducerId 0 "app", .initProducerId 0 "app"]
    (by decide)).2 "app" ⟨0, 0⟩ ⟨0, 1⟩ (by decide) (by decide) (by decide)).mpr (.inl rfl)

/-- After `n + 1` incarnations the epoch is `n`. -/
theorem run_incarnations (n : Nat) (hn : n ≤ 32767) :
    let s := run step (start 0 60000) (replicate (n + 1) (.initProducerId 0 "app"))
    s.coordinator.txns = ∅ ∧ s.coordinator.nextProducerId = 1 ∧
      s.coordinator.identities.lookup "app" = some ⟨0, n⟩ ∧
      s.coordinator.currentEpoch.lookup 0 = some (n : Int) ∧ ("app", ⟨0, n⟩) ∈ s.handed := by
  induction n with
  | zero => exact ⟨rfl, rfl, by decide, by decide, by decide⟩
  | succ n ih =>
    obtain ⟨htxns, hnext, hid, hcur, -⟩ := ih (by omega)
    rw [replicate_succ', run_append, run_cons, run_nil]
    generalize run step (start 0 60000) (replicate (n + 1) (.initProducerId 0 "app")) = s at *
    have hmax : (n : Int) ≠ kMaxProducerEpoch := by unfold kMaxProducerEpoch; omega
    have hab : s.coordinator.abortOngoing 0 0 = s.coordinator := by simp [abortOngoing, htxns]
    simp [step, handOut, TransactionCoordinator.step, initProducerId, hid, hab, hmax, htxns, hnext]

/-- With the number of incarnations as a variable, so that no step of the proof counts up to it. -/
theorem run_exhausted (n : Nat) (hn : (n : Int) = kMaxProducerEpoch) :
    let s := run step (start 0 60000) (replicate (n + 2) (.initProducerId 0 "app"))
    ("app", ⟨0, kMaxProducerEpoch⟩) ∈ s.handed ∧
      s.coordinator.identities.lookup "app" = some ⟨1, 0⟩ ∧
      (s.coordinator.begin 0 0 kMaxProducerEpoch).isOk = true := by
  obtain ⟨htxns, hnext, hid, hcur, hmem⟩ :=
    run_incarnations n (by unfold kMaxProducerEpoch at hn; omega)
  rw [hn] at hid hcur hmem
  rw [replicate_succ', run_append, run_cons, run_nil]
  generalize run step (start 0 60000) (replicate (n + 1) (.initProducerId 0 "app")) = s at *
  have hab : s.coordinator.abortOngoing 0 0 = s.coordinator := by simp [abortOngoing, htxns]
  simp [step, handOut, TransactionCoordinator.step, initProducerId, hid, hab, htxns, hnext, hmem,
    TransactionCoordinator.begin, fencedBy, inProgress, hcur, Except.isOk, Except.toBool]

/-- The last identity before the epochs are exhausted is not fenced by the next one. -/
theorem exhausted_not_fenced :
    let s := run step (start 0 60000)
      (List.replicate (kMaxProducerEpoch.toNat + 2) (.initProducerId 0 "app"))
    ("app", ⟨0, kMaxProducerEpoch⟩) ∈ s.handed ∧
      s.coordinator.identities.lookup "app" = some ⟨1, 0⟩ ∧
      (s.coordinator.begin 0 0 kMaxProducerEpoch).isOk = true :=
  run_exhausted kMaxProducerEpoch.toNat rfl

end Registry

end Nexus
