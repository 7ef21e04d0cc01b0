import Mathlib.Data.List.Induction
import Nexus.Consensus.Safety

/-!
# Log Matching

Log Matching and the agreement on offsets rest on less than `Safety`: not on votes, quorums or
commits, but on each term having one leader. Every log is put together from the logs of the
leaders (`Lib.TermLog.Sourced`), and so is every entry and every snapshot on its way; the
deliveries that `Cluster.Sound` rules out do no harm here.

* `History.Booked`, `PacketBook`, `NodeBook`: the invariant, for the history, the packets on their
  way and the nodes.
* `Cluster.exists_books`: it holds after every run with one leader per term.
* `Cluster.log_matching`, `Cluster.offsets_agree`: what follows for any two logs.
-/

namespace Nexus

open Lib Lib.TermLog RaftNode List

/-- Every log of the history comes from the books of the leaders. -/
structure History.Booked (a : History) : Prop where
  sourced : a.Sourced LogEntry.term
  owner_pos : ∀ t o, a.owner t = some o → 0 < t
  chain : ∀ t, Chain 0 (batches (a.book t))

/-- What a leader sends is from its book. -/
structure PacketBook (a : History) (p : Packet) : Prop where
  append : ∀ args, p.msg.payload = .appendEntries args →
    a.owner args.term = some p.msg.src ∧ Quotes (a.book args.term) args
  install : ∀ args, p.msg.payload = .installSnapshot args →
    a.owner args.term = some p.msg.src ∧ args.snapshot.Of (a.book args.term)

/-- What the state of node `v` says about the history. -/
structure NodeBook (a : History) (v : NodeId) (c : Core) : Prop where
  term : a.term v = c.term
  view : c.log.View (a.log v)
  candidate : c.role = .candidate → 0 < c.term ∧ a.owner c.term ≠ some v
  leader : c.role = .leader → a.owner c.term = some v
  out : ∀ p ∈ c.out, PacketBook a p

/-- What makes node `v` act: its packet is from a book, a batch has records, and nobody else led
the term that it leads when the event is over. -/
structure CauseBook (a : History) (v : NodeId) (x : Cause) : Prop where
  log : ∀ q, x.packet = some q → PacketBook a q
  batch : ∀ b, x.batch = some b → 1 ≤ b.header.recordCount
  leads : ∀ t u, x.leads = some t → a.owner t = some u → u = v

/-- The history goes on by what node `v` does; it becomes the owner of no term but the one that it
leads when the event is over. -/
structure History.Grows (x : Cause) (v : NodeId) (a a' : History) : Prop where
  le : a.Le a'
  isLocal : Local v a a'
  owner : ∀ t, a'.owner t = some v → a.owner t = some v ∨ x.leads = some t

section Growth

variable {a a' a'' : History} {v w : NodeId} {x : Cause} {c c' : Core} {p : Packet} {t : Nat}

theorem History.Grows.refl (x : Cause) (v : NodeId) (a : History) : a.Grows x v a :=
  ⟨.refl a, .refl v a, fun _ h => .inl h⟩

theorem History.Grows.trans (h : a.Grows x v a') (h' : a'.Grows x v a'') : a.Grows x v a'' where
  le := h.le.trans h'.le
  isLocal := h.isLocal.trans h'.isLocal
  owner t ht := (h'.owner t ht).elim (h.owner t) .inr

theorem PacketBook.of_le (h : PacketBook a p) (hle : a.Le a') : PacketBook a' p where
  append args ha :=
    ⟨hle.owner _ _ (h.append args ha).1, (h.append args ha).2.mono (hle.book _)⟩
  install args ha :=
    ⟨hle.owner _ _ (h.install args ha).1, (h.install args ha).2.mono (hle.book _)⟩

theorem CauseBook.of_grows (h : CauseBook a v x) (hg : a.Grows x v a') : CauseBook a' v x where
  log q hq := (h.log q hq).of_le hg.le
  batch := h.batch
  leads t u ht hu := by
    by_contra huv
    exact huv (h.leads t u ht (hg.isLocal.owner u t huv hu))

/-- Steps of other nodes leave it true. -/
theorem NodeBook.frame (h : NodeBook a v c) (hle : a.Le a') (hlocal : Local w a a') (hv : v ≠ w) :
    NodeBook a' v c where
  term := (hlocal.term v hv).trans h.term
  view := by rw [hlocal.log v hv]; exact h.view
  candidate hr := ⟨(h.candidate hr).1, fun ho => (h.candidate hr).2 (hlocal.owner v _ hv ho)⟩
  leader hr := hle.owner _ _ (h.leader hr)
  out p hp := (h.out p hp).of_le hle

theorem History.Booked.matching (ha : a.Booked) (v : NodeId) (t : Nat) :
    Matching (a.log v) (a.book t) := fun _ _ _ hx hy hxy =>
  (ha.sourced.log v).matching (ha.sourced.book t) hx hy hxy

theorem History.Booked.term_pos (ha : a.Booked) {i : Nat} {e : LogEntry}
    (he : (a.log v)[i]? = some e) : 0 < e.term := by
  obtain ⟨o, ho⟩ := Option.ne_none_iff_exists'.mp (ha.sourced.log v i e he).2.1
  exact ha.owner_pos _ o ho

/-! ## Actions -/

/-- An action that leaves term and log alone and gains no role. -/
theorem NodeBook.congr (h : NodeBook a v c) (ht : c'.term = c.term) (hl : c'.log = c.log)
    (hc : c'.role = .candidate → c.role = .candidate)
    (hr : c'.role = .leader → c.role = .leader) (ho : ∀ p ∈ c'.out, PacketBook a p) :
    NodeBook a v c' where
  term := h.term.trans ht.symm
  view := by rw [hl]; exact h.view
  candidate hr' := by rw [ht]; exact h.candidate (hc hr')
  leader hr' := by rw [ht]; exact h.leader (hr hr')
  out := ho

/-- The history goes on to one that node `v` in state `c` is true of. -/
def Follow (x : Cause) (a : History) (v : NodeId) (c : Core) : Prop :=
  ∃ a' : History, a.Grows x v a' ∧ a'.Booked ∧ NodeBook a' v c

theorem NodeBook.keep (h : NodeBook a v c) (ha : a.Booked) : Follow x a v c :=
  ⟨a, .refl x v a, ha, h⟩

theorem grows_bump (ht : a.term v < t) : a.Grows x v (a.bump v t) where
  le := bump_le ht
  isLocal := bump_local t
  owner _ h := .inl h

theorem History.Booked.bump (ha : a.Booked) (ht : a.term v < t) :
    History.Booked (a.bump v t) :=
  ⟨ha.sourced.bump ht, ha.owner_pos, ha.chain⟩

section

variable (h : NodeBook a v c)

include h

section

variable (ha : a.Booked)

include ha

theorem NodeBook.raise {t : Nat} (ht : c.term < t) :
    Follow x a v (c.raise t) := by
  rw [← h.term] at ht
  refine ⟨a.bump v t, grows_bump ht, ha.bump ht, term_bump_self t, h.view, ?_, ?_, ?_⟩
  · exact fun hr => absurd hr (by simp [Core.raise, Core.stepDown])
  · exact fun hr => absurd hr (by simp [Core.raise, Core.stepDown])
  · exact fun p hp => (h.out p hp).of_le (bump_le ht)

theorem NodeBook.stand : Follow x a v c.stand := by
  have ht : a.term v < c.term + 1 := by rw [h.term]; omega
  refine ⟨a.bump v (c.term + 1), grows_bump ht, ha.bump ht, term_bump_self _, h.view,
    fun _ => ⟨Nat.succ_pos _, fun ho => ?_⟩, ?_, ?_⟩
  · have := ha.sourced.owner_le _ v ho
    change c.term + 1 ≤ _ at this
    omega
  · exact fun hr => absurd hr (by simp [Core.stand])
  · exact fun p hp => (h.out p hp).of_le (bump_le ht)

/-- Nobody else led the term, so the candidate's log becomes its book. -/
theorem NodeBook.win (hx : CauseBook a v x)
    (hr : c.role = .candidate) (hl : x.leads = some c.term) : Follow x a v c.win := by
  obtain ⟨hpos, hnot⟩ := h.candidate hr
  rw [← h.term] at hpos hnot hl
  have hnone : a.owner (a.term v) = none := by
    cases ho : a.owner (a.term v) with
    | none => rfl
    | some u => exact absurd (hx.leads _ u hl ho ▸ ho) hnot
  have hle := elect_le ha.sourced hnone
  refine ⟨a.elect v, ⟨hle, elect_local, ?_⟩,
    ⟨ha.sourced.elect hnone, ?_, chain_elect ha.chain h.view.chain⟩, h.term, h.view, ?_, ?_, ?_⟩
  · intro t ho
    by_cases ht : t = a.term v
    · exact .inr (ht ▸ hl)
    · rw [owner_elect_of_ne ht] at ho; exact .inl ho
  · intro t o ho
    by_cases ht : t = a.term v
    · rw [ht]; exact hpos
    · rw [owner_elect_of_ne ht] at ho; exact ha.owner_pos t o ho
  · exact fun hc => absurd hc (by simp [Core.win])
  · intro _
    rw [show c.win.term = a.term v from h.term.symm]
    exact owner_elect_self
  · exact fun p hp => (h.out p hp).of_le hle

/-- The leader's batch is in its log and in its book, or nothing has changed. -/
theorem NodeBook.write (hr : c.role = .leader)
    {batch : RecordBatch} (hb : 1 ≤ batch.header.recordCount) (fails : Option Nat) :
    Follow x a v { c with log := (c.log.append fails
      [{ term := c.term, index := c.log.lastIndex + 1, payload := batch }]).1 } := by
  obtain ⟨-, hview | ⟨e, he, hview⟩⟩ := h.view.appendOne hb fails c.term (c.log.lastIndex + 1)
  · exact NodeBook.keep { h with view := hview } ha
  · have hleads := h.leader hr
    rw [← h.term] at hleads he
    have hle := write_le (e := e) ha.sourced hleads
    refine ⟨a.write v e, ⟨hle, write_local e, fun _ ho => .inl ho⟩,
      ⟨ha.sourced.write hleads he, ha.owner_pos, chain_write ha.chain hview.chain⟩, h.term, ?_, ?_,
      fun _ => h.leader hr, fun p hp => (h.out p hp).of_le hle⟩
    · rw [log_write_self]; exact hview
    · exact fun hc => absurd (hr.symm.trans hc) (by simp)

/-- The log of a follower changes as `Follows` says. -/
theorem NodeBook.follow (hr : c.role = .follower)
    {o : NodeId} (ho : a.owner c.term = some o) {full : List LogEntry}
    (hf : Follows (a.log v) (a.book c.term) full) (hrole : c'.role = c.role)
    (hterm : c'.term = c.term) (hview : c'.log.View full)
    (hout : ∀ p ∈ c'.out, PacketBook a p) : Follow x a v c' := by
  have hsame : full = a.log v → Follow x a v c' := by
    rintro rfl
    refine NodeBook.keep ⟨h.term.trans hterm.symm, hview, ?_, ?_, hout⟩ ha
    · exact fun hc => absurd ((hrole.symm.trans hc).symm.trans hr) (by simp)
    · exact fun hc => absurd ((hrole.symm.trans hc).symm.trans hr) (by simp)
  rw [← h.term] at ho hf
  by_cases hov : o = v
  · subst hov
    rw [← (ha.sourced.leading o ho).1] at hf
    exact hsame hf.eq_self
  rcases hf with hf | ⟨m, rfl, hm⟩
  · exact hsame hf
  · refine ⟨a.adopt v m, ⟨adopt_le, adopt_local m, fun _ ho => .inl ho⟩,
      ⟨ha.sourced.adopt m ho hov, ha.owner_pos, ha.chain⟩, h.term.trans hterm.symm, ?_, ?_, ?_,
      fun p hp => (hout p hp).of_le adopt_le⟩
    · rw [log_adopt_self]; exact hview
    · exact fun hc => absurd ((hrole.symm.trans hc).symm.trans hr) (by simp)
    · exact fun hc => absurd ((hrole.symm.trans hc).symm.trans hr) (by simp)

end

/-- A reply is no message of a leader. -/
theorem NodeBook.out_reply (ha : ∀ args, p.msg.payload ≠ .appendEntries args)
    (hi : ∀ args, p.msg.payload ≠ .installSnapshot args) : ∀ q ∈ c.out ++ [p], PacketBook a q := by
  intro q hq
  rcases mem_append.mp hq with hq | hq
  · exact h.out q hq
  · rw [mem_singleton.mp hq]
    exact ⟨fun args hargs => absurd hargs (ha args), fun args hargs => absurd hargs (hi args)⟩

theorem NodeBook.append (ha : a.Booked) (hx : CauseBook a v x)
    {src : NodeId} {args : AppendEntriesArgs} (io : LogIo)
    (hm : x.Handles src (.appendEntries args)) (hr : c.role = .follower)
    (hargs : args.term = c.term) (hprev : args.prevLogIndex ≤ c.log.lastIndex)
    (hterm : c.log.termAt args.prevLogIndex = .ok args.prevLogTerm) :
    Follow x a v (c.appendEntries io src args) := by
  obtain ⟨q, hq, rfl, hqp⟩ := hm
  obtain ⟨howner, hquotes⟩ := (hx.log q hq).append args hqp
  rw [hargs] at howner hquotes
  obtain ⟨hag, es, hes, hentries⟩ := h.view.agree_prev (ha.matching v c.term)
    (fun _ _ he => ha.term_pos he) hquotes hterm
  rw [h.view.lastIndex] at hprev
  obtain ⟨full, htakes, -, -⟩ := appendEntriesFrom_spec h.view (ha.chain c.term)
    (ha.matching v c.term) io hes hprev hag
  rw [← hentries] at htakes
  exact h.follow ha hr howner htakes.follows rfl rfl htakes.view
    (h.out_reply (by simp) (by simp))

theorem NodeBook.install (ha : a.Booked) (hx : CauseBook a v x)
    {src : NodeId} {args : InstallSnapshotArgs} (io : InstallIo)
    (hm : x.Handles src (.installSnapshot args)) (hr : c.role = .follower)
    (hargs : args.term = c.term) : Follow x a v (c.installSnapshot io src args) := by
  obtain ⟨q, hq, rfl, hqp⟩ := hm
  obtain ⟨howner, hof⟩ := (hx.log q hq).install args hqp
  rw [hargs] at howner hof
  have hout : ∀ p ∈ (c.installSnapshot io q.msg.src args).out, PacketBook a p :=
    h.out_reply (by simp) (by simp)
  rcases Nat.lt_or_ge c.log.snapshotIndex args.snapshot.lastIncludedIndex with hgt | hle
  · obtain ⟨e, hbe, het, heo⟩ := hof (by omega)
    obtain ⟨full, htakes, -⟩ := installSnapshot_ahead h.view (ha.chain c.term)
      (ha.matching v c.term) io hgt hbe
    rw [het, heo] at htakes
    exact h.follow ha hr howner htakes.follows rfl rfl htakes.view hout
  · -- The log's own snapshot goes at least as far.
    have hsame : c.log.installSnapshot io args.snapshot.lastIncludedIndex
        args.snapshot.lastIncludedTerm args.snapshot.lastIncludedOffset = (c.log, true) := by
      rw [RaftLog.installSnapshot, if_pos hle]
    refine h.follow ha hr howner (.inl rfl) rfl rfl ?_ hout
    simp only [Core.installSnapshot, hsame]
    exact h.view

end

/-- A log is only compacted as far as it goes. -/
theorem RaftLog.View.le_length_of_compactTo {log log' : RaftLog} {full : List LogEntry}
    (h : log.View full) {k : Nat} (hk : log.compactTo k = .ok log') : k ≤ full.length := by
  unfold RaftLog.compactTo at hk
  split at hk
  · rename_i hle; exact Nat.le_trans hle h.covered
  rename_i hgt
  rw [h.getElem?_slotOf (by omega)] at hk
  cases he : full[k - 1]? with
  | none => simp [he, makeError] at hk
  | some e =>
    have := lt_length_of_getElem? he
    omega

section

variable (h : NodeBook a v c)

include h

theorem NodeBook.compact {log : RaftLog} {k : Nat}
    (hl : c.log.compactTo k = .ok log) : NodeBook a v { c with log } := by
  obtain ⟨r, hr, hview, -⟩ := h.view.compactTo (h.view.le_length_of_compactTo hl)
  obtain rfl : r = log := Except.ok.inj (hr.symm.trans hl)
  exact { h with view := hview }

theorem NodeBook.truthful (ha : a.Booked) (hself : c.self = v)
    (hp : Truthful x c p) : PacketBook a p := by
  obtain ⟨hsrc, hp⟩ := hp
  rw [hself] at hsrc
  have hbook : c.role = .leader → a.log v = a.book c.term := by
    intro hr
    have howner := h.leader hr
    rw [← h.term] at howner ⊢
    exact (ha.sourced.leading v howner).1
  refine ⟨fun args hargs => ?_, fun args hargs => ?_⟩
  · rw [hargs] at hp
    obtain ⟨hterm, -, hrole, -, hprev, hsnap, hentries⟩ := hp
    rw [hterm, hsrc, ← hbook hrole]
    exact ⟨h.leader hrole, h.view.quotes hprev hsnap hentries⟩
  · rw [hargs] at hp
    obtain ⟨hterm, -, hrole, hsnap⟩ := hp
    rw [hterm, hsrc, hsnap, ← hbook hrole]
    exact ⟨h.leader hrole, h.view.snapshotOf⟩

/-- Each action is a step of the history or leaves it alone. -/
theorem NodeBook.act (ha : a.Booked) (hx : CauseBook a v x)
    (hself : c.self = v) (hact : Act x c c') : Follow x a v c' := by
  cases hact with
  | stepDown =>
    have hnode : NodeBook a v c.stepDown :=
      h.congr rfl rfl (fun hr => absurd hr (by simp [Core.stepDown]))
        (fun hr => absurd hr (by simp [Core.stepDown])) h.out
    exact hnode.keep ha
  | raise t ht => exact h.raise ha ht
  | probe hr hv =>
    have hnode : NodeBook a v { c with role := .preCandidate, votesGranted := [c.self] } :=
      h.congr rfl rfl (fun hr => absurd hr (by simp)) (fun hr => absurd hr (by simp)) h.out
    exact hnode.keep ha
  | stand hv => exact h.stand ha
  | win hr hm hl => exact h.win ha hx hr hl
  | write batch fails hb hr => exact h.write ha hr (hx.batch batch hb) fails
  | append src args io hm hr ht _ _ hprev hterm => exact h.append ha hx io hm hr ht hprev hterm
  | install src args io hm hr ht => exact h.install ha hx io hm hr ht
  | compact log _ hl => exact (h.compact hl).keep ha
  | send p hp =>
    have hout : ∀ q ∈ (c.emit p).out, PacketBook a q := by
      intro q hq
      rcases mem_append.mp hq with hq | hq
      · exact h.out q hq
      · rw [mem_singleton.mp hq]; exact h.truthful ha hself hp
    have hnode : NodeBook a v (c.emit p) := h.congr rfl rfl (fun hc => hc) (fun hr => hr) hout
    exact hnode.keep ha
  | poll | cast | count | credit | commit =>
    refine NodeBook.keep ?_ ha
    exact h.congr rfl rfl (fun hc => hc) (fun hr => hr) h.out

/-- A run of actions takes the history along. -/
theorem NodeBook.acts (ha : a.Booked) (hx : CauseBook a v x)
    (hself : c.self = v) (hacts : Acts x c c') : Follow x a v c' := by
  induction hacts with
  | refl => exact h.keep ha
  | tail hacts hact ih =>
    obtain ⟨b, hg, hb, hnode⟩ := ih
    obtain ⟨d, hg', hd, hnode'⟩ := hnode.act hb (hx.of_grows hg)
      ((Acts.sameSite hacts).self.trans hself) hact
    exact ⟨d, hg.trans hg', hd, hnode'⟩

end

end Growth

/-! ## Runs of a cluster -/

namespace Cluster

variable {voters learners : List NodeId} {c : Cluster} {a : History} {es : List Event} {e : Event}

/-- The condition on events: every proposed batch has a record. -/
def HasRecords (_ : Cluster) : Event → Prop
  | .propose _ _ batch => 1 ≤ batch.header.recordCount
  | _ => True

instance (c : Cluster) (e : Event) : Decidable (c.HasRecords e) := by
  unfold HasRecords
  induction e using Event.casesOn <;> infer_instance

/-- No term has two leaders, at one time or at different times of the run. -/
def OneLeaderPerTerm (c : Cluster) (es : List Event) : Prop :=
  ∀ ds fs, ds <+: es → fs <+: es → ∀ v w t,
    (run step c ds).LeaderIn v t → (run step c fs).LeaderIn w t → v = w

/-- The nodes and the network agree with the history. -/
structure BooksOk (voters learners : List NodeId) (c : Cluster) (a : History) : Prop where
  wf : c.Wf voters learners
  booked : a.Booked
  nodes : ∀ v ∈ c.members, NodeBook a v (c.nodes v).core
  net : ∀ p ∈ c.net, PacketBook a p

theorem booksOk_init (voters learners : List NodeId) (cfg : RaftConfig) (logCfg : LogConfig) :
    (init voters learners cfg logCfg).BooksOk voters learners TermLog.empty where
  wf := wf_init voters learners cfg logCfg
  booked :=
    { sourced := (inv_empty (Q := majority [])).toSourced
      owner_pos := fun _ _ h => absurd h (by simp [TermLog.empty])
      chain := fun _ => trivial }
  nodes v _ :=
    { term := rfl
      view := RaftLog.view_create logCfg
      candidate := fun hr => absurd hr (by simp [init, create, core])
      leader := fun hr => absurd hr (by simp [init, create, core])
      out := fun p hp => absurd hp (by simp [init, create, core]) }
  net p hp := absurd hp (by simp [init])

/-- The step of a node takes the cluster to where the node takes the history. -/
theorem BooksOk.stepBy {c' : Cluster} {a' : History} {v : NodeId} {x : Cause}
    {d : Core} (h : c.BooksOk voters learners a) (hs : c.StepBy e c' v x d) (hle : a.Le a')
    (hlocal : Local v a a') (ha' : a'.Booked) (hnode : NodeBook a' v d) :
    c'.BooksOk voters learners a' where
  wf := hs.wf h.wf
  booked := ha'
  nodes w hw := by
    rw [hs.members] at hw
    by_cases hwv : w = v
    · subst hwv
      rw [hs.result]
      exact hnode.congr rfl rfl (fun hr => hr) (fun hr => hr) (by simp)
    · rw [hs.other w hwv]
      exact (h.nodes w hw).frame hle hlocal hwv
  net p hp := by
    rcases hs.net p hp with hp | hp
    · exact (h.net p hp).of_le hle
    · exact hnode.out p hp

theorem booksOk_step (h : c.BooksOk voters learners a) (he : c.HasRecords e)
    (hlead : ∀ v t u, (c.step e).LeaderIn v t → a.owner t = some u → u = v) :
    ∃ a', a.Le a' ∧ (c.step e).BooksOk voters learners a' ∧
      ∀ t u, a'.owner t = some u → a.owner t = some u ∨ (c.step e).LeaderIn u t := by
  rcases step_spec h.wf e with heq | ⟨v, x, d, hs⟩
  · rw [heq]
    exact ⟨a, .refl a, h, fun _ _ hu => .inl hu⟩
  -- The node leads, when the event is over, what the cause of its actions says.
  have hleads : ∀ t, x.leads = some t → (c.step e).LeaderIn v t := by
    intro t ht
    rw [hs.leads, leads] at ht
    split at ht
    · rename_i hrole
      exact ⟨hs.members ▸ hs.mem, hrole, Option.some.inj ht⟩
    · cases ht
  have hx : CauseBook a v x := by
    refine ⟨fun q hq => ?_, fun b hb => ?_, fun t u ht hu => hlead v t u (hleads t ht) hu⟩
    · obtain ⟨-, k, io, now, -, hk⟩ := hs.packet q hq
      exact h.net q (mem_of_getElem? hk)
    · obtain ⟨io, rfl⟩ := hs.batch b hb
      exact he
  obtain ⟨a', hg, ha', hnode⟩ := (h.nodes v hs.mem).acts h.booked hx (h.wf.self v hs.mem) hs.acts
  refine ⟨a', hg.le, h.stepBy hs hg.le hg.isLocal ha' hnode, fun t u hu => ?_⟩
  by_cases huv : u = v
  · subst huv
    exact (hg.owner t hu).imp_right (hleads t)
  · exact .inl (hg.isLocal.owner u t huv hu)

/-- The history of a run with one leader per term. Whoever owns a term in it led it at some time
of the run. -/
theorem exists_books (cfg : RaftConfig) (logCfg : LogConfig)
    (hone : (init voters learners cfg logCfg).OneLeaderPerTerm es)
    (hrun : Along step HasRecords (init voters learners cfg logCfg) es) :
    ∃ a, (run step (init voters learners cfg logCfg) es).BooksOk voters learners a ∧
      ∀ t u, a.owner t = some u → ∃ ds, ds <+: es ∧
        (run step (init voters learners cfg logCfg) ds).LeaderIn u t := by
  induction es using reverseRecOn with
  | nil => exact ⟨_, booksOk_init voters learners cfg logCfg, fun _ _ h =>
      absurd h (by simp [TermLog.empty])⟩
  | append_singleton es e ih =>
    have hpre : es <+: es ++ [e] := prefix_append es [e]
    rw [along_append] at hrun
    obtain ⟨a, ha, howner⟩ := ih
      (fun ds fs hds hfs => hone ds fs (hds.trans hpre) (hfs.trans hpre)) hrun.1
    have hlast : run step (init voters learners cfg logCfg) (es ++ [e]) =
        (run step (init voters learners cfg logCfg) es).step e := run_append ..
    obtain ⟨a', -, ha', howner'⟩ := booksOk_step ha hrun.2.1 fun v t u hv hu => by
      obtain ⟨ds, hds, hlead⟩ := howner t u hu
      rw [← hlast] at hv
      exact hone ds _ (hds.trans hpre) (prefix_refl _) u v t hlead hv
    rw [hlast]
    refine ⟨a', ha', fun t u hu => ?_⟩
    rcases howner' t u hu with hold | hnew
    · obtain ⟨ds, hds, hlead⟩ := howner t u hold
      exact ⟨ds, hds.trans hpre, hlead⟩
    · exact ⟨_, prefix_refl _, hlast ▸ hnew⟩

/-- The lists that two logs stand for agree up to an index where both have an entry of one term. -/
theorem BooksOk.agree (h : c.BooksOk voters learners a) {v w : NodeId} (hv : v ∈ c.members)
    (hw : w ∈ c.members) {i t : Nat} (hi : 0 < i) (htv : (c.nodes v).log.termAt i = .ok t)
    (htw : (c.nodes w).log.termAt i = .ok t) :
    AgreeTo i (a.log v) (a.log w) ∧ i ≤ (a.log v).length := by
  rcases (h.nodes v hv).view.termAt_iff.mp htv with ⟨h0, -⟩ | ⟨-, -, e, he, het⟩
  · omega
  rcases (h.nodes w hw).view.termAt_iff.mp htw with ⟨h0, -⟩ | ⟨-, -, e', he', het'⟩
  · omega
  have hagree := (h.booked.sourced.log v).matching (h.booked.sourced.log w) he he'
    (het.trans het'.symm)
  rw [Nat.sub_add_cancel hi] at hagree
  have := lt_length_of_getElem? he
  exact ⟨hagree, by omega⟩

/-! ## Log Matching -/

/-- It is enough to name the leader of each term. -/
theorem oneLeaderPerTerm_of_inits (leader : Nat → NodeId)
    (h : ∀ ds ∈ es.inits, ∀ v ∈ (run step c ds).members,
      ((run step c ds).nodes v).role = .leader →
      v = leader ((run step c ds).nodes v).currentTerm) : c.OneLeaderPerTerm es := by
  rintro ds fs hds hfs v w t ⟨hv, hvl, rfl⟩ ⟨hw, hwl, hwt⟩
  rw [h ds ((mem_inits ds es).mpr hds) v hv hvl,
    h fs ((mem_inits fs es).mpr hfs) w hw hwl, hwt]

/-- After `commitOne`, node 3 takes the leader's snapshot, and the next batch reaches nodes 2
and 3. -/
def snapshotOne : List Event :=
  electOne ++ writeOne ++ commitOne ++ [.tick 1 {} 14000, .deliver 19 {} 14000,
    .deliver 21 {} 14000, .propose 1 {} (batchOf 2), .deliver 23 {} 14000, .deliver 24 {} 14000]

def batchWith (records : Int) (x : UInt8) : RecordBatch :=
  { header := { recordCount := records }, records := [x] }

/-- Three batches fill a segment. -/
def smallSegments : Cluster := init [1, 2, 3] [4] {} { segmentBytes := 100 }

/-- Node 2 takes the first two batches. The third one has a record count of -2: with it the leader's
log end falls back to offset 1, and the fourth batch starts a segment there. -/
def rewindOne : List Event :=
  electOne ++ [.propose 1 {} (batchWith 2 1), .propose 1 {} (batchWith 1 2), .deliver 12 {} 12000,
    .propose 1 {} (batchWith (-2) 3), .propose 1 {} (batchWith 3 4), .deliver 19 {} 12000]

/-- The offsets that a log gives for an entry are those of its batch. -/
theorem offsetsAt_of_view {r : RaftLog} {full : List LogEntry} (h : r.View full) {i : Nat}
    {e : LogEntry} (hi : r.snapshotIndex < i) (he : full[i - 1]? = some e) :
    r.offsetsAt i = .ok (e.batch.baseOffset, e.batch.lastOffset) := by
  rw [RaftLog.offsetsAt, if_neg (Nat.not_le_of_lt hi), h.getElem?_slotOf hi, he]
  rfl

/-- Replicas agree on offsets, although each log assigns them on its own. -/
theorem offsets_agree {voters learners : List NodeId} (cfg : RaftConfig) (logCfg : LogConfig)
    {es : List Event} (hone : (init voters learners cfg logCfg).OneLeaderPerTerm es)
    (hrun : Along step HasRecords (init voters learners cfg logCfg) es) {v w : NodeId}
    (hv : v ∈ voters ++ learners) (hw : w ∈ voters ++ learners) {i t : Nat}
    (hlv : ((run step (init voters learners cfg logCfg) es).nodes v).log.snapshotIndex < i)
    (hlw : ((run step (init voters learners cfg logCfg) es).nodes w).log.snapshotIndex < i)
    (htv : ((run step (init voters learners cfg logCfg) es).nodes v).log.termAt i = .ok t)
    (htw : ((run step (init voters learners cfg logCfg) es).nodes w).log.termAt i = .ok t) :
    ∃ first last : Int,
      ((run step (init voters learners cfg logCfg) es).nodes v).log.offsetsAt i =
        .ok (first, last) ∧
      ((run step (init voters learners cfg logCfg) es).nodes w).log.offsetsAt i =
        .ok (first, last) := by
  obtain ⟨a, ha, -⟩ := exists_books cfg logCfg hone hrun
  rw [← ha.wf.members] at hv hw
  have hi : 0 < i := Nat.zero_lt_of_lt hlv
  obtain ⟨hagree, hlen⟩ := ha.agree hv hw hi htv htw
  obtain ⟨entry, hentry⟩ : ∃ entry, (a.log v)[i - 1]? = some entry :=
    ⟨_, List.getElem?_eq_getElem (by omega)⟩
  have hentry' : (a.log w)[i - 1]? = some entry := (hagree (i - 1) (by omega)).symm.trans hentry
  exact ⟨_, _, offsetsAt_of_view (ha.nodes v hv).view hlv hentry,
    offsetsAt_of_view (ha.nodes w hw).view hlw hentry'⟩

/-- Node 3 came to the index through a snapshot, node 2 through the entries before it. -/
theorem offsets_agree_snapshotOne :
    four.OneLeaderPerTerm snapshotOne ∧ Along step HasRecords four snapshotOne ∧
    ((run step four snapshotOne).nodes 2).log.snapshotIndex = 0 ∧
    ((run step four snapshotOne).nodes 3).log.snapshotIndex = 1 ∧
    ((run step four snapshotOne).nodes 2).log.offsetsAt 2 = .ok (1, 1) ∧
    ∃ first last : Int,
      ((run step four snapshotOne).nodes 2).log.offsetsAt 2 = .ok (first, last) ∧
      ((run step four snapshotOne).nodes 3).log.offsetsAt 2 = .ok (first, last) := by
  have hone : four.OneLeaderPerTerm snapshotOne :=
    oneLeaderPerTerm_of_inits (fun _ => 1) (by decide +kernel)
  have hrun : Along step HasRecords four snapshotOne := by decide +kernel
  have htwo : ((run step four snapshotOne).nodes 2).log.snapshotIndex = 0 := by decide +kernel
  have hthree : ((run step four snapshotOne).nodes 3).log.snapshotIndex = 1 := by decide +kernel
  exact ⟨hone, hrun, htwo, hthree, by decide +kernel,
    offsets_agree {} {} hone hrun (by decide) (by decide) (htwo.trans_lt (by decide))
      (hthree.trans_lt (by decide)) (t := 1) (by decide +kernel) (by decide +kernel)⟩

end Cluster

end Nexus
