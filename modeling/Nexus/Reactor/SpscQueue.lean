import Mathlib.Algebra.Group.Nat.Defs
import Mathlib.Logic.Function.Basic
import Nexus.Lib.Run

/-!
# The ring between two cores

`reactor/spsc_queue.hpp` and `CrossCoreMailbox` of `reactor/cross_core.cpp`, step by step: every
load and store of a counter and every access to a cell is a step of its own, and the steps of the
producer and of the owner interleave in any way. The counters wrap modulo `2 ^ 64`.

* `Channel.Follows`: the ring as a queue, at every step of the two.
* `CrossCoreMailbox.delivers`: what is handed over from each core is a first part of what it
  posted, there are never more than `cap` messages in the ring, and `try_push` has room in `post`.
-/

namespace Nexus

open Lib List Function

variable {T : Type} {cap : Nat}

/-- The ring. A cell is empty before its first use, and after its value was moved out. -/
structure SpscQueue (T : Type) where
  head : BitVec 64 := 0
  tail : BitVec 64 := 0
  buf : Nat → Option T := fun _ => none

/-- `pos & kMask`. -/
def SpscQueue.slot (cap : Nat) (pos : BitVec 64) : Nat := (pos &&& BitVec.ofNat 64 (cap - 1)).toNat

/-- Where the producer is: outside, in the loop of `post`, or in `try_push`, which `post` calls too
(`inPost`). -/
inductive Channel.Producer (T : Type) where
  | idle
  | sizeTail (msg : T)
  | sizeHead (msg : T) (tail : BitVec 64)
  | pushTail (msg : T) (inPost : Bool)
  | pushHead (msg : T) (inPost : Bool) (tail : BitVec 64)
  | write (msg : T) (inPost : Bool) (tail : BitVec 64)
  | publish (msg : T) (inPost : Bool) (tail : BitVec 64)

/-- Where the owner is in `try_pop`, and then in the handler. -/
inductive Channel.Consumer (T : Type) where
  | idle
  | popTail (head : BitVec 64)
  | take (head : BitVec 64)
  | free (head : BitVec 64) (value : Option T)
  | handle (value : Option T)

/-- A ring, its two sides, and what has gone through it. -/
structure Channel (T : Type) where
  queue : SpscQueue T := {}
  producer : Channel.Producer T := .idle
  consumer : Channel.Consumer T := .idle
  /-- The messages that `post` was called with, and those that `try_push` has taken. -/
  posted : List T := []
  handed : List (Option T) := []
  /-- A `try_push` inside `post` returned `false`. -/
  failed : Bool := false

namespace Channel

def post (msg : T) (s : Channel T) : Channel T :=
  match s.producer with
  | .idle => { s with producer := .sizeTail msg, posted := s.posted ++ [msg] }
  | _ => s

def tryPush (msg : T) (s : Channel T) : Channel T :=
  match s.producer with
  | .idle => { s with producer := .pushTail msg false }
  | _ => s

/-- The next step of the producer. -/
def produce (cap : Nat) (s : Channel T) : Channel T :=
  match s.producer with
  | .idle => s
  | .sizeTail msg => { s with producer := .sizeHead msg s.queue.tail }
  | .sizeHead msg tail =>
    -- `wake` and `yield` while the ring is full
    if cap ≤ (tail - s.queue.head).toNat then { s with producer := .sizeTail msg }
    else { s with producer := .pushTail msg true }
  | .pushTail msg inPost => { s with producer := .pushHead msg inPost s.queue.tail }
  | .pushHead msg inPost tail =>
    if tail - s.queue.head = BitVec.ofNat 64 cap then
      { s with producer := .idle, failed := s.failed || inPost }
    else { s with producer := .write msg inPost tail }
  | .write msg inPost tail =>
    { s with
      queue := { s.queue with
        buf := Function.update s.queue.buf (SpscQueue.slot cap tail) (some msg) }
      producer := .publish msg inPost tail }
  | .publish msg inPost tail =>
    { s with
      queue := { s.queue with tail := tail + 1 }
      producer := .idle
      posted := if inPost then s.posted else s.posted ++ [msg] }

/-- The next step of the owner. -/
def consume (cap : Nat) (s : Channel T) : Channel T :=
  match s.consumer with
  | .idle => { s with consumer := .popTail s.queue.head }
  | .popTail head =>
    if head = s.queue.tail then { s with consumer := .idle } else { s with consumer := .take head }
  | .take head =>
    { s with
      queue := { s.queue with buf := Function.update s.queue.buf (SpscQueue.slot cap head) none }
      consumer := .free head (s.queue.buf (SpscQueue.slot cap head)) }
  | .free head value =>
    { s with queue := { s.queue with head := head + 1 }, consumer := .handle value }
  | .handle value => { s with consumer := .idle, handed := s.handed ++ [value] }

/-- Does `try_pop` return nothing at its next step? -/
def popsNothing (s : Channel T) : Bool :=
  match s.consumer with
  | .popTail head => head = s.queue.tail
  | _ => false

end Channel

/-! ## The mailbox of a core -/

/-- The inboxes of a core, one for each core that posts to it. -/
structure CrossCoreMailbox (n : Nat) (T : Type) where
  inboxes : Fin n → Channel T := fun _ => {}
  /-- The inbox that the loop of `drain` is at, `none` outside of `drain`. -/
  drainAt : Option Nat := none

namespace CrossCoreMailbox

variable {n : Nat}

inductive Event (n : Nat) (T : Type) where
  | post (core : Fin n) (msg : T)
  | tryPush (core : Fin n) (msg : T)
  | produce (core : Fin n)
  /-- The next step of `drain`. -/
  | drain
  /-- The next step of `try_pop`. -/
  | pop (core : Fin n)

def setInbox (s : CrossCoreMailbox n T) (core : Fin n) (q : Channel T) : CrossCoreMailbox n T :=
  { s with inboxes := Function.update s.inboxes core q }

def step (cap : Nat) (s : CrossCoreMailbox n T) : Event n T → CrossCoreMailbox n T
  | .post core msg => s.setInbox core ((s.inboxes core).post msg)
  | .tryPush core msg => s.setInbox core ((s.inboxes core).tryPush msg)
  | .produce core => s.setInbox core ((s.inboxes core).produce cap)
  | .pop core => s.setInbox core ((s.inboxes core).consume cap)
  | .drain =>
    match s.drainAt with
    | none => { s with drainAt := some 0 }
    | some i =>
      if h : i < n then
        let q := s.inboxes ⟨i, h⟩
        let drainAt := if q.popsNothing then i + 1 else i
        { s.setInbox ⟨i, h⟩ (q.consume cap) with drainAt := some drainAt }
      else { s with drainAt := none }

end CrossCoreMailbox

/-! ## Counters and cells -/

/-- What `static_assert` asks of `Cap`, which is a `std::size_t`. -/
structure IsCapacity (cap : Nat) : Prop where
  two_le : 2 ≤ cap
  powerOfTwo : cap &&& (cap - 1) = 0
  lt : cap < 2 ^ 64

theorem mod_ne {i j : Nat} (hij : i < j) (hj : j < i + cap) : i % cap ≠ j % cap := by
  intro heq
  have hdvd : cap ∣ j - i := Nat.dvd_of_mod_eq_zero (Nat.sub_mod_eq_zero_of_mod_eq heq.symm)
  have := Nat.le_of_dvd (by omega) hdvd
  omega

namespace IsCapacity

variable (hcap : IsCapacity cap)
include hcap

/-- A cell is the position modulo the capacity, however often the counter has wrapped. -/
theorem slot_ofNat (i : Nat) : SpscQueue.slot cap (BitVec.ofNat 64 i) = i % cap := by
  have hne : cap ≠ 0 := by
    have := hcap.two_le
    omega
  obtain ⟨k, hk⟩ := (Nat.and_sub_one_eq_zero_iff_isPowerOfTwo hne).mp hcap.powerOfTwo
  have hlt := hcap.lt
  have hdvd : 2 ^ k ∣ 2 ^ 64 := by
    refine Nat.pow_dvd_pow 2 (Nat.le_of_lt ((Nat.pow_lt_pow_iff_right Nat.one_lt_two).mp ?_))
    rwa [← hk]
  unfold SpscQueue.slot
  rw [BitVec.toNat_and, BitVec.toNat_ofNat, BitVec.toNat_ofNat,
    Nat.mod_eq_of_lt (Nat.lt_of_le_of_lt (Nat.sub_le cap 1) hlt), hk,
    Nat.and_two_pow_sub_one_eq_mod, Nat.mod_mod_of_dvd i hdvd]

/-- The difference of the counters is the number of messages. -/
theorem toNat_sub {h t : Nat} (hle : h ≤ t) (hroom : t ≤ h + cap) :
    (BitVec.ofNat 64 t - BitVec.ofNat 64 h).toNat = t - h := by
  have hlt := hcap.lt
  rw [BitVec.toNat_sub, BitVec.toNat_ofNat, BitVec.toNat_ofNat]
  omega

end IsCapacity

/-! ## The ring as a queue -/

namespace Channel

variable {q q' : SpscQueue T} {s : Channel T} {pushed : List T} {c : Consumer T}

/-- The message of a `post` that is not in the ring yet. -/
def pending : Producer T → List T
  | .sizeTail msg | .sizeHead msg _ => [msg]
  | .pushTail msg inPost | .pushHead msg inPost _ | .write msg inPost _ | .publish msg inPost _ =>
    if inPost then [msg] else []
  | .idle => []

/-- What the producer knows, with `h` messages taken out of the ring and `t` put in. -/
def Producing (cap : Nat) (q : SpscQueue T) (h t : Nat) : Producer T → Prop
  | .idle | .sizeTail _ => True
  | .sizeHead _ tail => tail = q.tail
  | .pushTail _ inPost => inPost = true → t < h + cap
  | .pushHead _ inPost tail => tail = q.tail ∧ (inPost = true → t < h + cap)
  | .write _ _ tail => tail = q.tail ∧ t < h + cap
  | .publish msg _ tail => tail = q.tail ∧ t < h + cap ∧ q.buf (t % cap) = some msg

/-- What the owner knows, `pushed` being what was put into the ring. -/
def Consuming (q : SpscQueue T) (h t : Nat) (pushed : List T) : Consumer T → Prop
  | .idle => True
  | .popTail head => head = q.head
  | .take head => head = q.head ∧ h < t
  | .free head value => head = q.head ∧ h < t ∧ value = pushed[h]?
  | .handle value => 0 < h ∧ value = pushed[h - 1]?

/-- The position whose cell is the first that the owner has not emptied. -/
def filledFrom (h : Nat) : Consumer T → Nat
  | .free _ _ => h + 1
  | _ => h

/-- How many messages the handler has had. -/
def handled (h : Nat) : Consumer T → Nat
  | .handle _ => h - 1
  | _ => h

/-- The ring holds the messages `h, …, t - 1` of `pushed`, each in its cell. -/
structure Follows (cap : Nat) (s : Channel T) (h t : Nat) (pushed : List T) : Prop where
  head : s.queue.head = BitVec.ofNat 64 h
  tail : s.queue.tail = BitVec.ofNat 64 t
  le : h ≤ t
  room : t ≤ h + cap
  length : pushed.length = t
  cells : ∀ i, filledFrom h s.consumer ≤ i → i < t → s.queue.buf (i % cap) = pushed[i]?
  producing : Producing cap s.queue h t s.producer
  consuming : Consuming s.queue h t pushed s.consumer
  posted : s.posted = pushed ++ pending s.producer
  handed : s.handed = (pushed.take (handled h s.consumer)).map some
  failed : s.failed = false

theorem le_filledFrom (h : Nat) (c : Consumer T) : h ≤ filledFrom h c := by
  cases c <;> simp [filledFrom]

/-- The owner only makes room. -/
theorem Producing.take {h h' t : Nat} {p : Producer T} (hp : Producing cap q h t p)
    (htail : q'.tail = q.tail) (hle : h ≤ h')
    (hbuf : t < h + cap → q'.buf (t % cap) = q.buf (t % cap)) : Producing cap q' h' t p := by
  cases p with
  | idle => trivial
  | sizeTail => trivial
  | sizeHead msg tail => exact Eq.trans hp htail.symm
  | pushTail msg inPost => exact fun h1 => Nat.lt_of_lt_of_le (hp h1) (by omega)
  | pushHead msg inPost tail =>
    exact ⟨hp.1.trans htail.symm, fun h1 => Nat.lt_of_lt_of_le (hp.2 h1) (by omega)⟩
  | write msg inPost tail => exact ⟨hp.1.trans htail.symm, Nat.lt_of_lt_of_le hp.2 (by omega)⟩
  | publish msg inPost tail =>
    exact ⟨hp.1.trans htail.symm, Nat.lt_of_lt_of_le hp.2.1 (by omega),
      (hbuf hp.2.1).trans hp.2.2⟩

/-- The producer only adds messages. -/
theorem Consuming.put {h t : Nat}
    (hc : Consuming q h t pushed c) (hhead : q'.head = q.head) (hlen : pushed.length = t)
    (hle : h ≤ t) (msg : T) : Consuming q' h (t + 1) (pushed ++ [msg]) c := by
  cases c with
  | idle => trivial
  | popTail head => exact Eq.trans hc hhead.symm
  | take head => exact ⟨hc.1.trans hhead.symm, Nat.lt_succ_of_lt hc.2⟩
  | free head value =>
    obtain ⟨h1, h2, h3⟩ := hc
    refine ⟨h1.trans hhead.symm, Nat.lt_succ_of_lt h2, ?_⟩
    rw [h3, getElem?_append_left (by omega)]
  | handle value =>
    obtain ⟨h1, h2⟩ := hc
    refine ⟨h1, ?_⟩
    rw [h2, getElem?_append_left (by omega)]

theorem Consuming.of_head {h t : Nat}
    (hc : Consuming q h t pushed c) (hhead : q'.head = q.head) : Consuming q' h t pushed c := by
  cases c with
  | idle => trivial
  | popTail head => exact Eq.trans hc hhead.symm
  | take head => exact ⟨hc.1.trans hhead.symm, hc.2⟩
  | free head value => exact ⟨hc.1.trans hhead.symm, hc.2⟩
  | handle value => exact hc

theorem follows_empty (cap : Nat) : Follows cap ({} : Channel T) 0 0 [] where
  head := rfl
  tail := rfl
  le := Nat.le_refl 0
  room := Nat.zero_le _
  length := rfl
  cells i _ hi := absurd hi (Nat.not_lt_zero i)
  producing := trivial
  consuming := trivial
  posted := rfl
  handed := rfl
  failed := rfl

/-! ### One step of each side -/

section Steps

variable {s : Channel T} {h t : Nat} {pushed : List T}

section

variable (hs : Follows cap s h t pushed)

include hs

/-- The producer goes from one place to another without touching the ring. -/
theorem Follows.goto {p : Producer T} {posted : List T}
    (hp : Producing cap s.queue h t p) (hposted : posted = pushed ++ pending p) :
    Follows cap { s with producer := p, posted := posted } h t pushed :=
  { hs with producing := hp, posted := hposted }

theorem Follows.post (msg : T) :
    Follows cap (s.post msg) h t pushed := by
  unfold Channel.post
  cases hp : s.producer with
  | idle =>
    have hposted := hs.posted
    rw [hp, pending, append_nil] at hposted
    exact hs.goto trivial (by rw [hposted]; rfl)
  | _ => exact hs

theorem Follows.tryPush (msg : T) :
    Follows cap (s.tryPush msg) h t pushed := by
  unfold Channel.tryPush
  cases hp : s.producer with
  | idle =>
    have hposted := hs.posted
    rw [hp] at hposted
    exact hs.goto (fun h1 => absurd h1 Bool.false_ne_true) hposted
  | _ => exact hs

end

/-- The cell that the producer fills is not one of a message in the ring. -/
theorem Follows.write (hcap : IsCapacity cap) (hs : Follows cap s h t pushed) {msg : T}
    {inPost : Bool} {tail : BitVec 64} (hp : s.producer = .write msg inPost tail) :
    Follows cap (s.produce cap) h t pushed := by
  have hroom := hs.producing
  rw [hp] at hroom
  obtain ⟨htail, hroom⟩ := hroom
  have hslot : SpscQueue.slot cap tail = t % cap := by
    rw [htail, hs.tail, hcap.slot_ofNat]
  have hposted := hs.posted
  rw [hp] at hposted
  simp only [Channel.produce, hp]
  refine { hs with
    cells := fun i hi hlt => ?_
    producing := ⟨htail, hroom, ?_⟩
    consuming := hs.consuming.of_head rfl
    posted := hposted }
  · have hle := Nat.le_trans (le_filledFrom h s.consumer) hi
    have hne : i % cap ≠ t % cap := mod_ne hlt (by omega)
    exact (update_of_ne (by rwa [hslot]) _ _).trans (hs.cells i hi hlt)
  · rw [← hslot]
    exact update_self _ _ _

/-- `tail` moves past a cell that is filled. -/
theorem Follows.publish (hs : Follows cap s h t pushed) {msg : T} {inPost : Bool}
    {tail : BitVec 64} (hp : s.producer = .publish msg inPost tail) :
    Follows cap (s.produce cap) h (t + 1) (pushed ++ [msg]) := by
  have hroom := hs.producing
  rw [hp] at hroom
  obtain ⟨htail, hroom, hcell⟩ := hroom
  have hlen := hs.length
  have hle := hs.le
  have hposted := hs.posted
  rw [hp] at hposted
  simp only [Channel.produce, hp]
  refine { head := hs.head, tail := ?_, le := Nat.le_succ_of_le hle, room := hroom, length := ?_,
           cells := fun i hi hlt => ?_, producing := trivial,
           consuming := hs.consuming.put rfl hlen hle msg, posted := ?_, handed := ?_,
           failed := hs.failed }
  · change tail + 1 = _
    rw [htail, hs.tail, BitVec.ofNat_add]
    rfl
  · rw [length_append, hlen]
    rfl
  · rcases Nat.lt_or_eq_of_le (Nat.le_of_lt_succ hlt) with hold | hnew
    · rw [getElem?_append_left (by omega)]
      exact hs.cells i hi hold
    · rw [hnew, ← hlen, getElem?_concat_length, hlen]
      exact hcell
  · cases inPost with
    | true => simpa [pending] using hposted
    | false => simpa [pending] using hposted
  · have hhandled : handled h s.consumer ≤ pushed.length := by
      cases s.consumer <;> simp only [handled] <;> omega
    change s.handed = _
    rw [take_append_of_le_length hhandled]
    exact hs.handed

/-- What a step of the producer keeps. -/
theorem Follows.produce (hcap : IsCapacity cap) (hs : Follows cap s h t pushed) :
    ∃ t' pushed', Follows cap (s.produce cap) h t' pushed' := by
  have hprod := hs.producing
  have hposted := hs.posted
  have hsub := hcap.toNat_sub hs.le hs.room
  rw [← hs.tail, ← hs.head] at hsub
  cases hp : s.producer with
  | write msg inPost tail => exact ⟨t, pushed, hs.write hcap hp⟩
  | publish msg inPost tail => exact ⟨t + 1, pushed ++ [msg], hs.publish hp⟩
  | idle =>
    refine ⟨t, pushed, ?_⟩
    simp only [Channel.produce, hp]
    exact hs
  | sizeTail msg =>
    refine ⟨t, pushed, ?_⟩
    rw [hp] at hposted
    simp only [Channel.produce, hp]
    exact hs.goto rfl hposted
  | sizeHead msg tail =>
    refine ⟨t, pushed, ?_⟩
    rw [hp] at hposted hprod
    obtain rfl : tail = s.queue.tail := hprod
    simp only [Channel.produce, hp]
    by_cases hfull : cap ≤ (s.queue.tail - s.queue.head).toNat
    · simp only [if_pos hfull]
      exact hs.goto trivial hposted
    · simp only [if_neg hfull]
      -- the owner can only make more room before `try_push`
      exact hs.goto (fun _ => by omega) hposted
  | pushTail msg inPost =>
    refine ⟨t, pushed, ?_⟩
    rw [hp] at hposted hprod
    simp only [Channel.produce, hp]
    exact hs.goto ⟨rfl, hprod⟩ hposted
  | pushHead msg inPost tail =>
    refine ⟨t, pushed, ?_⟩
    rw [hp] at hposted hprod
    obtain ⟨rfl, hroom⟩ := hprod
    simp only [Channel.produce, hp]
    have hfull : s.queue.tail - s.queue.head = BitVec.ofNat 64 cap ↔ t - h = cap := by
      rw [← BitVec.toNat_inj, hsub, BitVec.toNat_ofNat, Nat.mod_eq_of_lt hcap.lt]
    by_cases heq : s.queue.tail - s.queue.head = BitVec.ofNat 64 cap
    · simp only [if_pos heq]
      have hnot : inPost = false := by
        rw [← Bool.not_eq_true]
        intro h1
        have := hroom h1
        have := hfull.mp heq
        have := hcap.two_le
        omega
      subst hnot
      rw [Bool.or_false]
      exact hs.goto trivial hposted
    · simp only [if_neg heq]
      have hne := mt hfull.mpr heq
      have hle := hs.room
      exact hs.goto ⟨rfl, by omega⟩ hposted

/-- What a step of the owner keeps. -/
theorem Follows.consume (hcap : IsCapacity cap) (hs : Follows cap s h t pushed) :
    ∃ h', Follows cap (s.consume cap) h' t pushed := by
  have hcons := hs.consuming
  have hcells := hs.cells
  have hhanded := hs.handed
  have hsub := hcap.toNat_sub hs.le hs.room
  rw [← hs.tail, ← hs.head] at hsub
  cases hc : s.consumer with
  | idle =>
    rw [hc] at hcells hhanded
    simp only [Channel.consume, hc]
    exact ⟨h, { hs with cells := hcells, consuming := rfl, handed := hhanded }⟩
  | popTail head =>
    rw [hc] at hcells hhanded hcons
    obtain rfl : head = s.queue.head := hcons
    simp only [Channel.consume, hc]
    by_cases hempty : s.queue.head = s.queue.tail
    · simp only [if_pos hempty]
      exact ⟨h, { hs with cells := hcells, consuming := trivial, handed := hhanded }⟩
    · simp only [if_neg hempty]
      have hlt : h < t := by
        refine Nat.lt_of_le_of_ne hs.le fun heq => hempty ?_
        rw [hs.head, hs.tail, heq]
      exact ⟨h, { hs with cells := hcells, consuming := ⟨rfl, hlt⟩, handed := hhanded }⟩
  | take head =>
    rw [hc] at hcells hhanded hcons
    obtain ⟨rfl, hlt⟩ := hcons
    have hslot : SpscQueue.slot cap s.queue.head = h % cap := by
      rw [hs.head, hcap.slot_ofNat]
    simp only [Channel.consume, hc]
    refine ⟨h, { hs with
      cells := fun i hi hlt' => ?_
      producing := hs.producing.take rfl (Nat.le_refl h) fun hroom => ?_
      consuming := ⟨rfl, hlt, ?_⟩
      handed := hhanded }⟩
    · have hle := hs.room
      have hi : h + 1 ≤ i := hi
      have hne : h % cap ≠ i % cap := mod_ne (by omega) (by omega)
      exact (update_of_ne (by rw [hslot]; exact hne.symm) _ _).trans
        (hcells i (Nat.le_of_succ_le hi) hlt')
    · exact update_of_ne (by rw [hslot]; exact (mod_ne hlt hroom).symm) _ _
    · rw [hslot]
      exact hcells h (Nat.le_refl h) hlt
  | free head value =>
    rw [hc] at hcells hhanded hcons
    obtain ⟨rfl, hlt, hvalue⟩ := hcons
    simp only [Channel.consume, hc]
    refine ⟨h + 1, { hs with
      head := ?_
      le := hlt
      room := Nat.le_trans hs.room (by omega)
      cells := hcells
      producing := hs.producing.take rfl (Nat.le_succ h) fun _ => rfl
      consuming := ⟨Nat.succ_pos h, hvalue⟩
      handed := hhanded }⟩
    change s.queue.head + 1 = _
    rw [hs.head, BitVec.ofNat_add]
    rfl
  | handle value =>
    rw [hc] at hcells hhanded hcons
    obtain ⟨hpos, hvalue⟩ := hcons
    simp only [Channel.consume, hc]
    refine ⟨h, { hs with cells := hcells, consuming := trivial, handed := ?_ }⟩
    have hlen := hs.length
    have hle := hs.le
    have hlt : h - 1 < pushed.length := by omega
    have htake : pushed.take h = pushed.take (h - 1) ++ [pushed[h - 1]] := by
      rw [take_append_getElem hlt, Nat.sub_add_cancel hpos]
    change s.handed ++ [value] = (pushed.take h).map some
    rw [hhanded, htake, hvalue, getElem?_eq_getElem hlt, map_append]
    rfl

end Steps

/-- The ring is a queue, wherever its two sides are. -/
def Fifo (cap : Nat) (s : Channel T) : Prop := ∃ h t pushed, Follows cap s h t pushed

theorem Fifo.consume (hcap : IsCapacity cap) (hs : Fifo cap s) : Fifo cap (s.consume cap) := by
  obtain ⟨h, t, pushed, hs⟩ := hs
  obtain ⟨h', hs'⟩ := hs.consume hcap
  exact ⟨h', t, pushed, hs'⟩

theorem Fifo.produce (hcap : IsCapacity cap) (hs : Fifo cap s) : Fifo cap (s.produce cap) := by
  obtain ⟨h, t, pushed, hs⟩ := hs
  obtain ⟨t', pushed', hs'⟩ := hs.produce hcap
  exact ⟨h, t', pushed', hs'⟩

/-- What is handed over is a first part of what was posted. -/
theorem Fifo.handed_posted (hs : Fifo cap s) : s.handed <+: s.posted.map some := by
  obtain ⟨h, t, pushed, hs⟩ := hs
  rw [hs.handed, hs.posted, map_append]
  exact (( take_prefix _ pushed).map some).trans (prefix_append _ _)

theorem Fifo.inFlight_le (hcap : IsCapacity cap) (hs : Fifo cap s) :
    (s.queue.tail - s.queue.head).toNat ≤ cap := by
  obtain ⟨h, t, pushed, hs⟩ := hs
  have hroom := hs.room
  rw [hs.tail, hs.head, hcap.toNat_sub hs.le hroom]
  omega

theorem Fifo.not_failed (hs : Fifo cap s) : s.failed = false := by
  obtain ⟨h, t, pushed, hs⟩ := hs
  exact hs.failed

end Channel

/-! ## Every interleaving -/

namespace CrossCoreMailbox

variable {n : Nat}

/-- Every inbox is a queue. -/
def Fifo (cap : Nat) (s : CrossCoreMailbox n T) : Prop := ∀ core, (s.inboxes core).Fifo cap

theorem Fifo.setInbox {s : CrossCoreMailbox n T} (hs : s.Fifo cap) (core : Fin n) {q : Channel T}
    (hq : q.Fifo cap) : (s.setInbox core q).Fifo cap := by
  intro c
  change Channel.Fifo cap (update s.inboxes core q c)
  by_cases hc : c = core
  · rwa [hc, update_self]
  · rw [update_of_ne hc]
    exact hs c

theorem Fifo.step (hcap : IsCapacity cap) {s : CrossCoreMailbox n T} (hs : s.Fifo cap)
    (e : Event n T) : (s.step cap e).Fifo cap := by
  cases e with
  | post core msg =>
    obtain ⟨h, t, pushed, hq⟩ := hs core
    exact hs.setInbox core ⟨h, t, pushed, hq.post msg⟩
  | tryPush core msg =>
    obtain ⟨h, t, pushed, hq⟩ := hs core
    exact hs.setInbox core ⟨h, t, pushed, hq.tryPush msg⟩
  | produce core => exact hs.setInbox core ((hs core).produce hcap)
  | pop core => exact hs.setInbox core ((hs core).consume hcap)
  | drain =>
    rw [CrossCoreMailbox.step]
    cases s.drainAt with
    | none => exact hs
    | some i =>
      by_cases hi : i < n
      · simp only [dif_pos hi]
        exact hs.setInbox ⟨i, hi⟩ ((hs ⟨i, hi⟩).consume hcap)
      · simp only [dif_neg hi]
        exact hs

theorem fifo_empty : ({} : CrossCoreMailbox n T).Fifo cap :=
  fun _ => ⟨0, 0, [], Channel.follows_empty cap⟩

/-- After any interleaving of the posting cores and the owner: what the handler was given from a
core is a first part of what that core posted, the ring holds at most `cap` messages, and no
`try_push` inside of `post` has failed. -/
theorem delivers (hcap : IsCapacity cap) (es : List (Event n T)) (core : Fin n) :
    let inbox := (run (step cap) ({} : CrossCoreMailbox n T) es).inboxes core
    inbox.handed <+: inbox.posted.map some ∧
      (inbox.queue.tail - inbox.queue.head).toNat ≤ cap ∧ inbox.failed = false := by
  have hfifo : (run (step cap) ({} : CrossCoreMailbox n T) es).Fifo cap :=
    run_invariant (fun _ e hs _ => hs.step hcap e) fifo_empty
      (along_of_forall (fun _ _ => trivial) _ es)
  have hinbox := hfifo core
  exact ⟨hinbox.handed_posted, hinbox.inFlight_le hcap, hinbox.not_failed⟩

/-- Two posts of a core to itself while its owner drains: one message is handed over, the other
is in the ring. -/
theorem delivers_two_posts :
    let posting : List (Event 1 Nat) := List.replicate 6 (.produce 0)
    let draining : List (Event 1 Nat) := List.replicate 6 .drain
    let es := .post 0 7 :: posting ++ .post 0 8 :: posting ++ draining
    let inbox := (run (step 1024) ({} : CrossCoreMailbox 1 Nat) es).inboxes 0
    inbox.handed = [some 7] ∧ inbox.posted = [7, 8] ∧
      inbox.handed <+: inbox.posted.map some ∧
      (inbox.queue.tail - inbox.queue.head).toNat ≤ 1024 ∧ inbox.failed = false :=
  ⟨by decide +kernel, by decide +kernel,
    delivers ⟨by decide, by decide, by decide⟩ _ 0⟩

end CrossCoreMailbox

end Nexus
