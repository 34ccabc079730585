import RolloutRuntime.RingBuffer.Alone
import RolloutRuntime.Rings.Safety

/-!
# When a software queue delivers what is in it

The consumers of six of the rings of the runtime test for emptiness by `head >= tail`. The indices
are free-running 32-bit counters, so the test is right as long as the producer index has not wrapped.
Once `2 ^ 32` elements have been published it has wrapped and the consumer index has not: the
consumer then finds the ring empty for ever, with work in it. The fast path ring, which compares for
equality, has no such state.

## Main definitions

* `Queue.calls`: the ring after a sequence of whole calls of the two ends, from the zeroed ring.
* `Queue.Delivers`: if an element is pending, the next call of the consumer returns the oldest one.

## Main results

* `Queue.Lawful.delivers_iff`: a queue delivers exactly as long as fewer than `2 ^ 32` elements have been
  published.
* `softQueues_deliver_iff`: this, for the six rings; `softQueues_stall`: the runs that stall.

## References

* `include/ring.h` lines 60–69, `include/completion.h` lines 78–87, `include/request.h`
  lines 112–150, `src/reward.c` lines 24–34, `src/pipeline.c` lines 24–34.
-/

namespace RolloutRuntime

open Concurrency RingBuffer

namespace Queue

variable {k : ℕ} {α : Type} (q : Queue k α)

/-- A call of one of the two ends. -/
inductive AnyCall
  | give (b : q.Batch)
  | take

/-- The ring after one whole call. -/
def call (r : Ring 32 k α) : q.AnyCall → Ring 32 k α
  | .give b => ((q.give b).run Op.effect r).2
  | .take => (q.take.run Op.effect r).2

/-- The ring after a sequence of whole calls, accepted and refused, from the zeroed ring. -/
def calls (z : α) (cs : List q.AnyCall) : Ring 32 k α := cs.foldl q.call (Ring.zeroed 32 k z)

/-- If an element is pending, the next call of the consumer returns the oldest pending one. -/
def Delivers (r : Ring 32 k α) : Prop :=
  r.taken.length < r.published.length → (q.take.run Op.effect r).1 = r.published[r.taken.length]?

end Queue

/-! ### Delivery -/

namespace Queue

variable {k : ℕ} {α : Type} {q : Queue k α}

/-- The ordered test never lets the consumer index wrap. -/
def Reached (r : Ring 32 k α) : Prop := r.Inv ∧ r.taken.length < 2 ^ 32

theorem Lawful.reached_call (hq : q.Lawful) (htake : q.take = consume orderedEmpty)
    {r : Ring 32 k α} (hr : Reached r) (x : q.AnyCall) : Reached (q.call r x) := by
  obtain ⟨hinv, hlt⟩ := hr
  cases x with
  | give b =>
    obtain ⟨x, r', hrun, hinv', htaken, -⟩ := producer_run_of_ok hinv (hq.give_ok b hinv)
    rw [call, hrun]
    refine ⟨hinv', ?_⟩
    rwa [htaken]
  | take =>
    have hinv' : (q.take.run Op.effect r).2.Inv := by
      obtain ⟨x, r', hrun, hinv', -⟩ := run_of_ok hinv hq.take_ok
      rwa [hrun]
    refine ⟨hinv', ?_⟩
    change (q.take.run Op.effect r).2.taken.length < 2 ^ 32
    rw [htake, consume_run]
    by_cases h : orderedEmpty r.cons r.prod = true
    · rwa [if_pos h]
    · rw [if_neg h, List.length_append, List.length_singleton]
      -- the consumer index is below some 32-bit value, so its successor is no wrap
      have hcons : r.cons.toNat = r.taken.length := by
        rw [hinv.cons_eq, BitVec.toNat_ofNat, Nat.mod_eq_of_lt hlt]
      have hlt' : r.cons.toNat < r.prod.toNat := by
        simpa [orderedEmpty, BitVec.lt_def] using h
      have := r.prod.isLt
      omega

theorem Lawful.reached_calls (hq : q.Lawful) (htake : q.take = consume orderedEmpty) (z : α)
    (cs : List q.AnyCall) : Reached (q.calls z cs) := by
  have hstep : ∀ (cs : List q.AnyCall) (r : Ring 32 k α), Reached r → Reached (cs.foldl q.call r) := by
    intro cs
    induction cs with
    | nil => exact fun r hr => hr
    | cons x cs ih => exact fun r hr => ih _ (hq.reached_call htake hr x)
  exact hstep cs _ ⟨Ring.zeroed_inv z, Nat.two_pow_pos 32⟩

/-- **Delivery.** After any calls, a queue with the ordered test delivers exactly if fewer than
`2 ^ 32` elements have been published. -/
theorem Lawful.delivers_iff (hq : q.Lawful) (htake : q.take = consume orderedEmpty) (z : α)
    (cs : List q.AnyCall) :
    q.Delivers (q.calls z cs) ↔ (q.calls z cs).published.length < 2 ^ 32 := by
  obtain ⟨hinv, hlt⟩ := hq.reached_calls htake z cs
  generalize q.calls z cs = r at hinv hlt ⊢
  have hk := hq.size_lt
  have hpow : 2 ^ k ≤ 2 ^ 31 := Nat.pow_le_pow_right (by decide) (by omega)
  have hbound := hinv.bound
  have hcons : r.cons.toNat = r.taken.length := by
    rw [hinv.cons_eq, BitVec.toNat_ofNat, Nat.mod_eq_of_lt hlt]
  have hprod : r.prod.toNat = r.published.length % 2 ^ 32 := by
    rw [hinv.prod_eq, BitVec.toNat_ofNat]
  rw [Delivers, htake, consume_run]
  constructor
  · intro h
    by_contra hge
    have hpend : r.taken.length < r.published.length := by omega
    have hempty : orderedEmpty r.cons r.prod = true := by
      have hwrap : r.prod.toNat ≤ r.cons.toNat := by omega
      simpa [orderedEmpty, BitVec.le_def] using hwrap
    have hold := h hpend
    rw [if_pos hempty, hinv.oldest hk.le hpend] at hold
    exact absurd hold (by simp)
  · intro hsmall hpend
    have hfull : orderedEmpty r.cons r.prod = false := by
      have hord : r.cons.toNat < r.prod.toNat := by
        rw [hcons, hprod, Nat.mod_eq_of_lt hsmall]
        exact hpend
      simpa [orderedEmpty, BitVec.lt_def] using hord
    rw [hfull, hinv.oldest hk.le hpend]
    rfl

/-! ### A run that stalls -/

/-- `n` times: hand over `b` and take it; then hand over `b` once more. -/
def pairsThenOne (b : q.Batch) (n : ℕ) : List q.AnyCall :=
  (List.replicate n [.give b, .take]).flatten ++ [.give b]

/-- The producer accepts `b` on an empty ring. -/
def AcceptsWhenEmpty (q : Queue k α) (b : q.Batch) : Prop :=
  ∀ r : Ring 32 k α, r.prod = r.cons → ((q.give b).run Op.effect r).1 = true

theorem Lawful.give_run (hq : q.Lawful) {b : q.Batch} (haccept : q.AcceptsWhenEmpty b)
    {r : Ring 32 k α} (hr : r.Inv) (heq : r.published.length = r.taken.length) :
    ∃ r', (q.give b).run Op.effect r = (true, r') ∧ r'.Inv ∧ r'.taken = r.taken ∧
      r'.published = r.published ++ q.items b := by
  have hx := haccept r ((hr.prod_eq_cons_iff hq.size_lt).mpr heq)
  obtain ⟨x, r', hrun, hr', htaken, hpub, -⟩ := producer_run_of_ok hr (hq.give_ok b hr)
  rw [hrun] at hx
  obtain rfl : x = true := hx
  exact ⟨r', hrun, hr', htaken, by simpa using hpub⟩

theorem Lawful.published_give (hq : q.Lawful) {b : q.Batch} (haccept : q.AcceptsWhenEmpty b)
    {r : Ring 32 k α} (hr : r.Inv) (heq : r.published.length = r.taken.length) :
    (q.call r (.give b)).published = r.published ++ q.items b ∧
      (q.call r (.give b)).taken = r.taken := by
  obtain ⟨r', hrun, -, htaken, hpub⟩ := hq.give_run haccept hr heq
  rw [call, hrun]
  exact ⟨hpub, htaken⟩

/-- After `n < 2 ^ 32` pairs of calls the ring is empty and has seen `n` elements. -/
theorem Lawful.length_pairs (hq : q.Lawful) (htake : q.take = consume orderedEmpty) (z : α)
    {b : q.Batch} (haccept : q.AcceptsWhenEmpty b) (hone : (q.items b).length = 1) {n : ℕ}
    (hn : n < 2 ^ 32) :
    (q.calls z (List.replicate n [.give b, .take]).flatten).published.length = n ∧
      (q.calls z (List.replicate n [.give b, .take]).flatten).taken.length = n := by
  induction n with
  | zero => exact ⟨rfl, rfl⟩
  | succ n ih =>
    obtain ⟨hp, ht⟩ := ih (by omega)
    rw [List.replicate_succ', List.flatten_append]
    set cs := (List.replicate n [AnyCall.give b, .take]).flatten
    obtain ⟨hinv, -⟩ := hq.reached_calls htake z cs
    obtain ⟨hpub, htak⟩ := hq.published_give haccept hinv (hp.trans ht.symm)
    have hgive := hq.reached_calls htake z (cs ++ [.give b])
    have hdel := (hq.delivers_iff htake z (cs ++ [.give b])).mpr
    have hsplit : q.calls z (cs ++ [.give b]) = q.call (q.calls z cs) (.give b) := by
      simp [calls, List.foldl_append]
    rw [hsplit] at hgive hdel
    have hlen : (q.call (q.calls z cs) (.give b)).published.length = n + 1 := by
      rw [hpub, List.length_append, hp, hone]
    have hlen' : (q.call (q.calls z cs) (.give b)).taken.length = n := by rw [htak, ht]
    have htaken := hdel (by omega) (by omega)
    have hcalls : q.calls z (cs ++ [[AnyCall.give b, .take]].flatten) =
        q.call (q.call (q.calls z cs) (.give b)) .take := by
      simp [calls, List.foldl_append]
    rw [hcalls]
    generalize q.call (q.calls z cs) (.give b) = r at *
    change (q.take.run Op.effect r).2.published.length = _ ∧ (q.take.run Op.effect r).2.taken.length = _
    rw [htake, consume_run] at htaken ⊢
    by_cases h : orderedEmpty r.cons r.prod = true
    · rw [if_pos h, hgive.1.oldest hq.size_lt.le (by omega)] at htaken
      exact absurd htaken (by simp)
    · rw [if_neg h]
      exact ⟨hlen, by simp [hlen']⟩

/-- **The stalled run.** After `2 ^ 32 - 1` elements went through the ring, one more is accepted and
is not delivered. -/
theorem Lawful.not_delivers (hq : q.Lawful) (htake : q.take = consume orderedEmpty) (z : α)
    {b : q.Batch} (haccept : q.AcceptsWhenEmpty b) (hone : (q.items b).length = 1) :
    ¬ q.Delivers (q.calls z (pairsThenOne b (2 ^ 32 - 1))) := by
  rw [hq.delivers_iff htake]
  obtain ⟨hp, ht⟩ := hq.length_pairs htake z haccept hone (n := 2 ^ 32 - 1) (by decide)
  rw [pairsThenOne, calls, List.foldl_append]
  obtain ⟨hinv, -⟩ := hq.reached_calls htake z (List.replicate (2 ^ 32 - 1) [.give b, .take]).flatten
  have hpub := (hq.published_give haccept hinv (hp.trans ht.symm)).1
  change ¬ (q.call (q.calls z _) (.give b)).published.length < 2 ^ 32
  rw [hpub, List.length_append, hp, hone]
  decide

end Queue

/-! ### The six queues -/

theorem spaceTest_self {k : ℕ} (hk : k < 32) (i : BitVec 32) : spaceTest k i i 1 = false := by
  have hpow := Nat.pow_lt_pow_right (a := 2) (by decide) hk
  have hpos := Nat.two_pow_pos k
  simp only [spaceTest, BitVec.sub_self, BitVec.sub_zero, decide_eq_false_iff_not, BitVec.not_lt,
    BitVec.le_def, BitVec.toNat_ofNat, Nat.mod_eq_of_lt hpow]
  exact hpos

theorem acceptsWhenEmpty_push {k : ℕ} {α : Type} (hk : k < 32) (ownFirst counts : Bool) (a : α) :
    (⟨α, fun a => [a], push ⟨ownFirst, spaceTest k, counts⟩, consume orderedEmpty, counts⟩ :
      Queue k α).AcceptsWhenEmpty a := by
  intro r h
  have hroom : spaceTest k r.prod r.cons 1 = false := by rw [h, spaceTest_self hk]
  change ((push ⟨ownFirst, spaceTest k, counts⟩ a).run Op.effect r).1 = true
  rw [push_run_of_room hroom]

theorem submit_accepts {k : ℕ} {α : Type} (hk : k < 32) (ownFirst counts : Bool) (a : α)
    {r : Ring 32 k α} (h : r.prod = r.cons) :
    ((submit ⟨ownFirst, spaceTest k, counts⟩ [a]).run Op.effect r).1 = true := by
  have hroom : spaceTest k r.prod r.cons 1 = false := by rw [h, spaceTest_self hk]
  exact submit_run_of_room (P := ⟨ownFirst, spaceTest k, counts⟩) hroom

theorem commandQueue_acceptsWhenEmpty (d : Descriptor) :
    commandQueue.AcceptsWhenEmpty ⟨[d], Nat.one_lt_two_pow (by decide)⟩ := by
  intro r h
  change ((submitDescriptors [d]).run Op.effect r).1 = true
  rw [submitDescriptors_eq]
  exact submit_accepts (by decide) false false d h

theorem requestQueue_acceptsWhenEmpty (q : RolloutRequest) :
    requestQueue.AcceptsWhenEmpty q := by
  intro r h
  change ((submitRequest q).run Op.effect r).1 = true
  rw [submitRequest_eq]
  exact submit_accepts (by decide) false false q h

/-! ### The six rings -/

/-- The rings whose consumers use the ordered test. -/
inductive SoftRing
  | command
  | completion
  | request
  | done
  | reward
  | id

namespace SoftRing

/-- The binary logarithm of the number of slots. -/
def slotBits : SoftRing → ℕ
  | command | completion | id => 12
  | request | done | reward => 10

/-- The elements of the ring. -/
def Elem : SoftRing → Type
  | command => Descriptor
  | completion => Completion
  | request => RolloutRequest
  | done => RolloutDone
  | reward => RewardDesc
  | id => BitVec 32

/-- The ring with its two ends. -/
def queue : (i : SoftRing) → Queue i.slotBits i.Elem
  | command => commandQueue
  | completion => completionQueue
  | request => requestQueue
  | done => doneQueue
  | reward => rewardQueue
  | id => idQueue

theorem queue_lawful (i : SoftRing) : i.queue.Lawful := by
  cases i with
  | command => exact commandQueue_lawful
  | completion => exact completionQueue_lawful
  | request => exact requestQueue_lawful
  | done => exact doneQueue_lawful
  | reward => exact rewardQueue_lawful
  | id => exact idQueue_lawful

theorem queue_take (i : SoftRing) : i.queue.take = consume orderedEmpty := by
  cases i <;> rfl

end SoftRing

/-- **Delivery of the six rings.** After any run of calls, accepted and refused, a consumer returns the
oldest pending element if there is one, exactly if fewer than `2 ^ 32` elements were published. -/
theorem softQueues_deliver_iff (i : SoftRing) (z : i.Elem) (cs : List i.queue.AnyCall) :
    i.queue.Delivers (i.queue.calls z cs) ↔ (i.queue.calls z cs).published.length < 2 ^ 32 :=
  i.queue_lawful.delivers_iff i.queue_take z cs

/-- `2 ^ 32 - 1` elements go through each ring; one more is accepted, and its consumer does not get
it. -/
theorem softQueues_stall :
    ¬ commandQueue.Delivers (commandQueue.calls default
      (Queue.pairsThenOne ⟨[default], Nat.one_lt_two_pow (by decide)⟩ (2 ^ 32 - 1))) ∧
    ¬ completionQueue.Delivers (completionQueue.calls default
      (Queue.pairsThenOne (default : Completion) (2 ^ 32 - 1))) ∧
    ¬ requestQueue.Delivers (requestQueue.calls default
      (Queue.pairsThenOne (default : RolloutRequest) (2 ^ 32 - 1))) ∧
    ¬ doneQueue.Delivers (doneQueue.calls default
      (Queue.pairsThenOne (default : RolloutDone) (2 ^ 32 - 1))) ∧
    ¬ rewardQueue.Delivers (rewardQueue.calls default
      (Queue.pairsThenOne (default : RewardDesc) (2 ^ 32 - 1))) ∧
    ¬ idQueue.Delivers (idQueue.calls 0 (Queue.pairsThenOne (0 : BitVec 32) (2 ^ 32 - 1))) :=
  ⟨commandQueue_lawful.not_delivers rfl _ (commandQueue_acceptsWhenEmpty _) rfl,
    completionQueue_lawful.not_delivers rfl _
      (acceptsWhenEmpty_push (by decide) false true _) rfl,
    requestQueue_lawful.not_delivers rfl _ (requestQueue_acceptsWhenEmpty _) rfl,
    doneQueue_lawful.not_delivers rfl _ (acceptsWhenEmpty_push (by decide) false true _) rfl,
    rewardQueue_lawful.not_delivers rfl _ (acceptsWhenEmpty_push (by decide) true false _) rfl,
    idQueue_lawful.not_delivers rfl _ (acceptsWhenEmpty_push (by decide) true false _) rfl⟩

end RolloutRuntime
