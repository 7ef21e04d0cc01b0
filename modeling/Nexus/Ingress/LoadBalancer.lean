import Nexus.Common
import Nexus.Lib.Run

/-!
# The load balancer of the ingress

`ingress/load_balancer.cpp`. The hash is a parameter: nothing is asked of it, so several virtual
points may share a place on the ring, where the node that comes first keeps it.

* `Owns`: what consistent hashing is for, in terms of the set of nodes alone: the owner of a key
  has the virtual point that follows the key's most closely, clockwise, and of the nodes with a
  point at that place it is the least.
* `pick_eq_some_iff`: what `pick` finds on the ring is the owner.
-/

namespace Nexus

open Lib List

inductive BalanceStrategy
  | roundRobin | leastConnections | consistentHashing
  deriving DecidableEq

/-- `fnv1a_64`. -/
def fnv1a64 (data : List UInt8) : UInt64 :=
  data.foldl (fun hash byte => (hash ^^^ byte.toUInt64) * 1099511628211) 14695981039346656037

structure LoadBalancer where
  strategy : BalanceStrategy
  vnodes : Nat
  nodes : List NodeId := []
  cursor : Nat := 0
  active : NodeId → Option Nat := fun _ => none
  /-- The ring, by ascending points. -/
  ring : List (UInt64 × NodeId) := []

namespace LoadBalancer

variable (hash64 : List UInt8 → UInt64) (lb : LoadBalancer)

/-- The constructor. -/
def new (strategy : BalanceStrategy) (vnodes : Nat) : LoadBalancer :=
  { strategy, vnodes := max 1 vnodes }

/-- `std::map::emplace`: a point that is taken keeps its node. -/
def emplace (point : UInt64) (node : NodeId) : List (UInt64 × NodeId) → List (UInt64 × NodeId)
  | [] => [(point, node)]
  | (p, n) :: ring =>
    if point < p then (point, node) :: (p, n) :: ring
    else if point = p then (p, n) :: ring
    else (p, n) :: emplace point node ring

/-- The place of a virtual node. -/
def virtualPoint (node : NodeId) (replica : Nat) : UInt64 :=
  hash64 (toString node ++ "#" ++ toString replica).toUTF8.toList

def rebuildRing : LoadBalancer :=
  { lb with
    ring := lb.nodes.foldl (fun ring node => (List.range lb.vnodes).foldl
      (fun ring replica => emplace (virtualPoint hash64 node replica) node ring) ring) [] }

def addNode (node : NodeId) : LoadBalancer :=
  let before := lb.nodes.takeWhile (· < node)
  let after := lb.nodes.dropWhile (· < node)
  if after.head? = some node then lb
  else
    let lb := { lb with
      nodes := before ++ node :: after
      active := fun n => if n = node then (lb.active n).or (some 0) else lb.active n }
    if lb.strategy = .consistentHashing then lb.rebuildRing hash64 else lb

def removeNode (node : NodeId) : LoadBalancer :=
  if node ∉ lb.nodes then lb
  else
    let nodes := lb.nodes.erase node
    let lb := { lb with
      nodes
      active := fun n => if n = node then none else lb.active n
      cursor := if nodes.length ≤ lb.cursor then 0 else lb.cursor }
    if lb.strategy = .consistentHashing then lb.rebuildRing hash64 else lb

/-- `active`. -/
def activeOf (node : NodeId) : Nat := (lb.active node).getD 0

/-- The entry of the ring that a point belongs to. -/
def ringEntry (ring : List (UInt64 × NodeId)) (point : UInt64) : Option (UInt64 × NodeId) :=
  (ring.find? fun e => point ≤ e.1).or ring.head?

def pick (key : List UInt8) : Option NodeId × LoadBalancer :=
  match lb.nodes with
  | [] => (none, lb)
  | first :: _ =>
    match lb.strategy with
    | .roundRobin => (lb.nodes[lb.cursor]?, { lb with cursor := (lb.cursor + 1) % lb.nodes.length })
    | .leastConnections =>
      (some (lb.nodes.foldl
        (fun best node => if lb.activeOf node < lb.activeOf best then node else best) first), lb)
    | .consistentHashing => ((ringEntry lb.ring (hash64 key)).map (·.2), lb)

def onAcquire (node : NodeId) : LoadBalancer :=
  { lb with active := fun n => if n = node then some (lb.activeOf n + 1) else lb.active n }

def onRelease (node : NodeId) : LoadBalancer :=
  { lb with active := fun n => if n = node then (lb.active n).map (· - 1) else lb.active n }

inductive Call
  | addNode (node : NodeId)
  | removeNode (node : NodeId)
  | pick (key : List UInt8)
  | onAcquire (node : NodeId)
  | onRelease (node : NodeId)

def step : Call → LoadBalancer
  | .addNode node => lb.addNode hash64 node
  | .removeNode node => lb.removeNode hash64 node
  | .pick key => (lb.pick hash64 key).2
  | .onAcquire node => lb.onAcquire node
  | .onRelease node => lb.onRelease node

/-! ## The owner of a key -/

/-- The virtual point of `n` is not after that of `m`, seen clockwise from `point`; of two at one
place the lesser node comes first. -/
def Before (point : UInt64) (p : UInt64) (n : NodeId) (q : UInt64) (m : NodeId) : Prop :=
  p - point < q - point ∨ p = q ∧ n ≤ m

/-- The node of the set that the key belongs to. -/
def Owns (vnodes : Nat) (S : NodeId → Prop) (key : List UInt8) (n : NodeId) : Prop :=
  S n ∧ ∃ r < vnodes, ∀ m, S m → ∀ s < vnodes,
    Before (hash64 key) (virtualPoint hash64 n r) n (virtualPoint hash64 m s) m

variable {hash64 lb} {vnodes : Nat} {S T : NodeId → Prop} {key : List UInt8} {n m : NodeId}

theorem Owns.unique (hn : Owns hash64 vnodes S key n) (hm : Owns hash64 vnodes S key m) :
    n = m := by
  obtain ⟨hSn, r, hr, hn⟩ := hn
  obtain ⟨hSm, s, hs, hm⟩ := hm
  have hnm := hn m hSm s hs
  have hmn := hm n hSn r hr
  unfold Before at hnm hmn
  grind

/-- The owner in a set stays the owner in each smaller set that it is in. -/
theorem Owns.mono (h : Owns hash64 vnodes S key n) (hn : T n) (hsub : ∀ m, T m → S m) :
    Owns hash64 vnodes T key n := by
  obtain ⟨-, r, hr, hmin⟩ := h
  exact ⟨hn, r, hr, fun m hm s hs => hmin m (hsub m hm) s hs⟩

/-! ## The ring -/

section Ring

variable {ring points : List (UInt64 × NodeId)} {p q x : UInt64} {e : UInt64 × NodeId}

theorem mem_of_mem_emplace (h : e ∈ emplace q m ring) : e ∈ ring ∨ e = (q, m) := by
  induction ring with
  | nil => simpa [emplace] using h
  | cons f ring ih => grind [emplace]

theorem mem_emplace_of_mem (h : e ∈ ring) : e ∈ emplace q m ring := by
  induction ring with
  | nil => cases h
  | cons f ring ih => grind [emplace]

/-- After `emplace` the place is taken, by the new node or by the one that was there. -/
theorem taken_emplace (q : UInt64) (m : NodeId) (ring : List (UInt64 × NodeId)) :
    (q, m) ∈ emplace q m ring ∨ ∃ n, (q, n) ∈ ring := by
  induction ring with
  | nil => simp [emplace]
  | cons f ring ih => grind [emplace]

theorem sorted_emplace (h : ring.Pairwise fun e f => e.1 < f.1) :
    (emplace q m ring).Pairwise fun e f => e.1 < f.1 := by
  induction ring with
  | nil => simp [emplace]
  | cons f ring ih =>
    obtain ⟨hf, hring⟩ := pairwise_cons.mp h
    simp only [emplace]
    split
    · rename_i hlt
      refine pairwise_cons.mpr ⟨fun g hg => ?_, h⟩
      rcases mem_cons.mp hg with rfl | hg
      · exact hlt
      · exact UInt64.lt_trans hlt (hf g hg)
    split
    · exact h
    · rename_i hge hne
      refine pairwise_cons.mpr ⟨fun g hg => ?_, ih hring⟩
      rcases mem_of_mem_emplace hg with hg | rfl
      · exact hf g hg
      · exact UInt64.lt_of_le_of_ne (UInt64.not_lt.mp hge) (Ne.symm hne)

/-- The ring holds the places of `points`, each with the least of its nodes. -/
structure Holds (points ring : List (UInt64 × NodeId)) : Prop where
  sorted : ring.Pairwise fun e f => e.1 < f.1
  sound : ring ⊆ points
  least : ∀ p m, (p, m) ∈ points → ∃ n ≤ m, (p, n) ∈ ring

theorem Holds.concat (h : Holds points ring) (hlast : ∀ e ∈ points, e.2 ≤ m) :
    Holds (points ++ [(q, m)]) (emplace q m ring) := by
  refine ⟨sorted_emplace h.sorted, fun e he => ?_, fun p k hk => ?_⟩
  · rcases mem_of_mem_emplace he with he | rfl
    · exact mem_append_left _ (h.sound he)
    · simp
  · rcases mem_append.mp hk with hk | hk
    · obtain ⟨n, hn, hmem⟩ := h.least p k hk
      exact ⟨n, hn, mem_emplace_of_mem hmem⟩
    · obtain ⟨rfl, rfl⟩ : p = q ∧ k = m := by simpa using hk
      rcases taken_emplace p k ring with hmem | ⟨n, hmem⟩
      · exact ⟨k, Int.le_refl k, hmem⟩
      · exact ⟨n, hlast _ (h.sound hmem), mem_emplace_of_mem hmem⟩

theorem Holds.foldl {done : List (UInt64 × NodeId)} (h : Holds done ring)
    (hasc : (done ++ points).Pairwise fun e f => e.2 ≤ f.2) :
    Holds (done ++ points) (points.foldl (fun ring e => emplace e.1 e.2 ring) ring) := by
  induction points generalizing done ring with
  | nil => simpa using h
  | cons e points ih =>
    have hlast : ∀ f ∈ done, f.2 ≤ e.2 := fun f hf =>
      (pairwise_append.mp hasc).2.2 f hf e mem_cons_self
    have hdone : done ++ e :: points = done ++ [e] ++ points := by simp
    rw [hdone] at hasc ⊢
    exact ih (h.concat hlast) hasc

/-- Clockwise from `x`, the places from `x` on come first, and each part is in its order. -/
theorem sub_le_sub_iff (hpq : x ≤ p ∧ (p ≤ q ∨ q < x) ∨ p ≤ q ∧ q < x) :
    p - x ≤ q - x := by
  have := x.toNat_lt
  have := p.toNat_lt
  have := q.toNat_lt
  simp only [UInt64.le_iff_toNat_le, UInt64.lt_iff_toNat_lt, UInt64.toNat_sub] at hpq ⊢
  omega

/-- The entry that a point belongs to is the first one clockwise. -/
theorem ringEntry_min (hsorted : ring.Pairwise fun e f => e.1 < f.1)
    (h : ringEntry ring x = some e) : e ∈ ring ∧ ∀ f ∈ ring, e.1 - x ≤ f.1 - x := by
  rcases hfind : ring.find? fun e => x ≤ e.1 with _ | e'
  · -- All the places are before `x`: the first of the ring follows it.
    have hall : ∀ f ∈ ring, f.1 < x := by simpa using hfind
    cases ring with
    | nil => cases h
    | cons f ring =>
      obtain rfl : f = e := by simpa [ringEntry, hfind] using h
      refine ⟨mem_cons_self, fun g hg => sub_le_sub_iff (.inr ⟨?_, hall g hg⟩)⟩
      rcases mem_cons.mp hg with rfl | hg
      · exact UInt64.le_refl _
      · exact UInt64.le_of_lt ((pairwise_cons.mp hsorted).1 g hg)
  · obtain rfl : e' = e := by simpa [ringEntry, hfind] using h
    obtain ⟨hx, as, bs, rfl, has⟩ := find?_eq_some_iff_append.mp hfind
    refine ⟨by simp, fun g hg => sub_le_sub_iff (.inl ⟨by simpa using hx, ?_⟩)⟩
    rcases mem_append.mp hg with hg | hg
    · exact .inr (by simpa using has g hg)
    rcases mem_cons.mp hg with rfl | hg
    · exact .inl (UInt64.le_refl _)
    · have hbs := (pairwise_cons.mp (pairwise_append.mp hsorted).2.1).1
      exact .inl (UInt64.le_of_lt (hbs g hg))

theorem eq_of_point_eq {f : UInt64 × NodeId} (hsorted : ring.Pairwise fun e f => e.1 < f.1)
    (he : e ∈ ring) (hf : f ∈ ring) (h : e.1 = f.1) : e = f := by
  induction ring with
  | nil => cases he
  | cons g ring ih =>
    simp only [pairwise_cons] at hsorted
    grind [UInt64.lt_irrefl]

theorem ringEntry_isSome (hne : ring ≠ []) (x : UInt64) : ∃ e, ringEntry ring x = some e := by
  obtain ⟨f, ring, rfl⟩ := exists_cons_of_ne_nil hne
  unfold ringEntry
  cases (f :: ring).find? fun e => x ≤ e.1 <;> simp

end Ring

/-- The virtual points in the order in which `rebuild_ring` adds them. -/
def virtualPoints (hash64 : List UInt8 → UInt64) (lb : LoadBalancer) : List (UInt64 × NodeId) :=
  lb.nodes.flatMap fun node =>
    (List.range lb.vnodes).map fun r => (virtualPoint hash64 node r, node)

theorem mem_virtualPoints {p : UInt64} :
    (p, n) ∈ lb.virtualPoints hash64 ↔
      n ∈ lb.nodes ∧ ∃ r < lb.vnodes, virtualPoint hash64 n r = p := by
  simp only [virtualPoints, mem_flatMap, mem_map, mem_range, Prod.mk.injEq]
  grind

/-- What every balancer for consistent hashing keeps. -/
structure Built (hash64 : List UInt8 → UInt64) (lb : LoadBalancer) : Prop where
  strategy : lb.strategy = .consistentHashing
  vnodes : 0 < lb.vnodes
  sorted : lb.nodes.Pairwise (· < ·)
  ring : lb.ring = (lb.rebuildRing hash64).ring

section

variable (h : lb.Built hash64)

include h

theorem Built.holds : Holds (lb.virtualPoints hash64) lb.ring := by
  have hasc : (lb.virtualPoints hash64).Pairwise fun e f => e.2 ≤ f.2 := by
    simp only [virtualPoints, pairwise_flatMap, pairwise_map, mem_map]
    refine ⟨fun _ _ => pairwise_of_forall (by simp), h.sorted.imp ?_⟩
    rintro a b hlt _ ⟨_, -, rfl⟩ _ ⟨_, -, rfl⟩
    exact Int.le_of_lt hlt
  have hempty : Holds [] [] := ⟨.nil, by simp, by simp⟩
  have hfold : Holds ([] ++ lb.virtualPoints hash64) _ := hempty.foldl hasc
  rw [h.ring]
  simpa [rebuildRing, virtualPoints, foldl_flatMap, foldl_map] using hfold

theorem Built.owns_of_pick (hpick : (lb.pick hash64 key).1 = some n) :
    Owns hash64 lb.vnodes (· ∈ lb.nodes) key n := by
  obtain ⟨e, hentry, rfl⟩ : ∃ e, ringEntry lb.ring (hash64 key) = some e ∧ e.2 = n := by
    simp only [pick, h.strategy] at hpick
    split at hpick
    · cases hpick
    · simpa using hpick
  obtain ⟨hmem, hmin⟩ := ringEntry_min h.holds.sorted hentry
  obtain ⟨hn, r, hr, hpoint⟩ := mem_virtualPoints.mp (h.holds.sound hmem)
  refine ⟨hn, r, hr, fun m hm s hs => ?_⟩
  obtain ⟨k, hk, hmem'⟩ := h.holds.least _ m (mem_virtualPoints.mpr ⟨hm, s, hs, rfl⟩)
  rw [hpoint]
  rcases UInt64.lt_or_eq_of_le (hmin _ hmem') with hlt | heq
  · exact .inl hlt
  · -- The same place has one entry, which has the least of the nodes there.
    have hsame : e.1 = virtualPoint hash64 m s := by simpa using heq
    have := eq_of_point_eq h.holds.sorted hmem hmem' hsame
    exact .inr ⟨hsame, by rw [this]; exact hk⟩

theorem Built.exists_pick (hm : m ∈ lb.nodes) (key : List UInt8) :
    ∃ n, (lb.pick hash64 key).1 = some n := by
  obtain ⟨n, -, hmem⟩ := h.holds.least _ m (mem_virtualPoints.mpr ⟨hm, 0, h.vnodes, rfl⟩)
  obtain ⟨e, he⟩ := ringEntry_isSome (ne_nil_of_mem hmem) (hash64 key)
  obtain ⟨first, rest, hnodes⟩ := exists_cons_of_ne_nil (ne_nil_of_mem hm)
  exact ⟨e.2, by simp [pick, h.strategy, hnodes, he]⟩

/-- What `pick` finds on the ring is the owner of the key among the nodes. -/
theorem Built.pick_eq_some_iff :
    (lb.pick hash64 key).1 = some n ↔ Owns hash64 lb.vnodes (· ∈ lb.nodes) key n := by
  refine ⟨h.owns_of_pick, fun hn => ?_⟩
  obtain ⟨m, hm⟩ := h.exists_pick hn.1 key
  rw [hm, hn.unique (h.owns_of_pick hm)]

/-- Two balancers pick alike when their owners agree. -/
theorem Built.pick_eq {lb' : LoadBalancer} (h' : lb'.Built hash64)
    (hiff : ∀ n, Owns hash64 lb.vnodes (· ∈ lb.nodes) key n ↔
      Owns hash64 lb'.vnodes (· ∈ lb'.nodes) key n) :
    (lb.pick hash64 key).1 = (lb'.pick hash64 key).1 :=
  Option.ext fun n => by rw [h.pick_eq_some_iff, h'.pick_eq_some_iff, hiff]

end

/-! ## Adding and removing nodes -/

/-- What `add_node` leaves after the new node is above it. -/
theorem lt_of_mem_dropWhile {nodes : List NodeId} {node : NodeId} (hsorted : nodes.Pairwise (· < ·))
    (hhead : (nodes.dropWhile (· < node)).head? ≠ some node) :
    ∀ a ∈ nodes.dropWhile (· < node), node < a := by
  induction nodes with
  | nil => simp
  | cons b nodes ih =>
    simp only [pairwise_cons] at hsorted
    by_cases hlt : b < node
    · simp only [dropWhile_cons, hlt, decide_true, if_true] at hhead ⊢
      exact ih hsorted.2 hhead
    · simp only [dropWhile_cons, hlt, decide_false] at hhead ⊢
      grind

section

variable (h : lb.Built hash64)

include h

/-- A change of the nodes that keeps them sorted and rebuilds the ring. -/
theorem Built.rebuild {lb' : LoadBalancer}
    (hs : lb'.strategy = .consistentHashing) (hv : lb'.vnodes = lb.vnodes)
    (hsorted : lb'.nodes.Pairwise (· < ·)) :
    (lb'.rebuildRing hash64).Built hash64 :=
  ⟨hs, by simpa [rebuildRing, hv] using h.vnodes, hsorted, rfl⟩

theorem Built.addNode (node : NodeId) :
    (lb.addNode hash64 node).Built hash64 ∧ (lb.addNode hash64 node).vnodes = lb.vnodes ∧
      ∀ n, n ∈ (lb.addNode hash64 node).nodes ↔ n = node ∨ n ∈ lb.nodes := by
  have hsplit := takeWhile_append_dropWhile (p := (· < node)) (l := lb.nodes)
  simp only [LoadBalancer.addNode, h.strategy, if_true]
  split
  · rename_i hhead
    have hmem := hsplit ▸ mem_append_right _ (mem_of_mem_head? hhead)
    exact ⟨h, rfl, fun n => ⟨.inr, fun hn => hn.elim (· ▸ hmem) id⟩⟩
  · rename_i hhead
    have habove := lt_of_mem_dropWhile h.sorted hhead
    have hbelow : ∀ a ∈ lb.nodes.takeWhile (· < node), a < node := fun a ha => by
      simpa using all_eq_true.mp all_takeWhile a ha
    refine ⟨h.rebuild rfl rfl ?_, rfl, fun n => ?_⟩
    · have hparts := pairwise_append.mp (hsplit ▸ h.sorted)
      refine pairwise_append.mpr ⟨hparts.1, pairwise_cons.mpr ⟨habove, hparts.2.1⟩, ?_⟩
      intro a ha b hb
      rcases mem_cons.mp hb with rfl | hb
      · exact hbelow a ha
      · exact hparts.2.2 a ha b hb
    · show n ∈ _ ++ node :: _ ↔ _
      rw [← hsplit]
      simp only [mem_append, mem_cons]
      grind

theorem Built.removeNode (node : NodeId) :
    (lb.removeNode hash64 node).Built hash64 ∧ (lb.removeNode hash64 node).vnodes = lb.vnodes ∧
      ∀ n, n ∈ (lb.removeNode hash64 node).nodes ↔ n ≠ node ∧ n ∈ lb.nodes := by
  by_cases hnode : node ∈ lb.nodes
  · simp only [LoadBalancer.removeNode, hnode, not_true_eq_false, if_false, h.strategy, if_true]
    refine ⟨h.rebuild rfl rfl (h.sorted.erase node), rfl, fun n => ?_⟩
    exact List.Nodup.mem_erase_iff (h.sorted.imp Int.ne_of_lt)
  · simp only [LoadBalancer.removeNode, hnode, not_false_eq_true, if_true]
    exact ⟨h, trivial, by grind⟩

theorem Built.step (call : Call) :
    (lb.step hash64 call).Built hash64 ∧ (lb.step hash64 call).vnodes = lb.vnodes := by
  cases call with
  | addNode node => exact ⟨(h.addNode node).1, (h.addNode node).2.1⟩
  | removeNode node => exact ⟨(h.removeNode node).1, (h.removeNode node).2.1⟩
  | pick key =>
    have hpick : (lb.pick hash64 key).2 = lb := by
      unfold pick
      split
      · rfl
      · simp [h.strategy]
    simpa [LoadBalancer.step, hpick] using h
  | onAcquire node => exact ⟨⟨h.strategy, h.vnodes, h.sorted, h.ring⟩, rfl⟩
  | onRelease node => exact ⟨⟨h.strategy, h.vnodes, h.sorted, h.ring⟩, rfl⟩

end

/-- The balancer after the calls. -/
def after (hash64 : List UInt8 → UInt64) (vnodes : Nat) (calls : List Call) : LoadBalancer :=
  run (step hash64) (new .consistentHashing vnodes) calls

theorem built_after (hash64 : List UInt8 → UInt64) (vnodes : Nat) (calls : List Call) :
    (after hash64 vnodes calls).Built hash64 ∧ (after hash64 vnodes calls).vnodes = max 1 vnodes :=
  run_invariant (P := fun _ _ => True)
    (I := fun lb : LoadBalancer => lb.Built hash64 ∧ lb.vnodes = max 1 vnodes)
    (fun _ call h _ => ⟨(h.1.step call).1, (h.1.step call).2.trans h.2⟩)
    ⟨⟨rfl, Nat.le_max_left 1 vnodes, .nil, rfl⟩, rfl⟩ (along_of_forall (fun _ _ => trivial) _ _)

/-- After any calls, a new node takes keys only for itself, a removed one gives up only its own
keys, and two histories that lead to the same nodes pick alike. -/
theorem pick_moves_minimally (hash64 : List UInt8 → UInt64) (vnodes : Nat) (calls : List Call)
    (key : List UInt8) :
    (∀ node, ((after hash64 vnodes calls).addNode hash64 node |>.pick hash64 key).1 = some node ∨
      ((after hash64 vnodes calls).addNode hash64 node |>.pick hash64 key).1 =
        ((after hash64 vnodes calls).pick hash64 key).1) ∧
    (∀ node, ((after hash64 vnodes calls).pick hash64 key).1 ≠ some node →
      ((after hash64 vnodes calls).removeNode hash64 node |>.pick hash64 key).1 =
        ((after hash64 vnodes calls).pick hash64 key).1) ∧
    ∀ calls',
      (∀ n, n ∈ (after hash64 vnodes calls').nodes ↔ n ∈ (after hash64 vnodes calls).nodes) →
      ((after hash64 vnodes calls').pick hash64 key).1 =
        ((after hash64 vnodes calls).pick hash64 key).1 := by
  obtain ⟨hbuilt, hvnodes⟩ := built_after hash64 vnodes calls
  refine ⟨fun node => ?_, fun node hother => ?_, fun calls' hsame => ?_⟩
  · obtain ⟨hbuilt', hvnodes', hmem⟩ := hbuilt.addNode node
    obtain ⟨n, hn⟩ := hbuilt'.exists_pick ((hmem node).mpr (.inl rfl)) key
    have hown := hbuilt'.owns_of_pick hn
    rw [hvnodes'] at hown
    rcases (hmem n).mp hown.1 with rfl | hold
    · exact .inl hn
    · right
      rw [hn, eq_comm, hbuilt.pick_eq_some_iff]
      exact hown.mono hold fun m hm => (hmem m).mpr (.inr hm)
  · obtain ⟨hbuilt', hvnodes', hmem⟩ := hbuilt.removeNode node
    cases hpick : ((after hash64 vnodes calls).pick hash64 key).1 with
    | some n =>
      have hown := hbuilt.owns_of_pick hpick
      have hne : n ≠ node := fun heq => hother (heq ▸ hpick)
      rw [hbuilt'.pick_eq_some_iff, hvnodes']
      exact hown.mono ((hmem n).mpr ⟨hne, hown.1⟩) fun m hm => ((hmem m).mp hm).2
    | none =>
      -- There was no node, so there is none to remove.
      refine Option.eq_none_iff_forall_ne_some.mpr fun n hn => ?_
      obtain ⟨m, hm⟩ := hbuilt.exists_pick ((hmem n).mp (hbuilt'.owns_of_pick hn).1).2 key
      simp [hpick] at hm
  · obtain ⟨hbuilt', hvnodes'⟩ := built_after hash64 vnodes calls'
    refine hbuilt'.pick_eq hbuilt fun n => ?_
    rw [hvnodes', hvnodes]
    exact ⟨fun h => h.mono ((hsame n).mp h.1) fun m hm => (hsame m).mpr hm,
      fun h => h.mono ((hsame n).mpr h.1) fun m hm => (hsame m).mp hm⟩

end LoadBalancer

end Nexus
