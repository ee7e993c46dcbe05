import BandleCxl.Invariant.Ring

/-!
The consumer's side of the ring invariant, and the invariant along every run. Two
facts carry the read path: a descriptor the consumer looks at is the one of the next
published message, so its sequence number always matches; and a line loaded after
the payload was stored is a copy of it, so only lines held from before can be stale.
-/
namespace BandleCxl.Invariant
open Library Source

variable {r : RingShape} {s t : SpscRing}

/-- The position whose descriptor the consumer looks at next. -/
def looksAt : ConsumerPc → Option Nat
  | .descriptor _ tail count read c _ =>
    if read + c < count then some (add64 tail (read + c)) else none
  | _ => none

/-- When the reader accepts a descriptor, its cache holds no line of the payload that
the descriptor names. -/
def AcceptsUncached (r : RingShape) (s : SpscRing) : RingAction → Prop
  | .readDescriptor _ => ∀ pos, looksAt s.consumer = some pos →
    (s.descs (r.slot pos)).slotSeq = add64 pos 1 →
      s.cache.Uncached (r.slot pos * kMaxValueBytes) (s.descs (r.slot pos)).bytes
  | _ => True

/-! ### What the reader sees -/

/-- A cache that is no staler than the current one. -/
def NoStaler (s : SpscRing) (cache : LineCache) : Prop :=
  ∀ addr len, s.cache.Fresh s.payloads addr len → cache.Fresh s.payloads addr len

theorem NoStaler.prefetch (s : SpscRing) (line : Nat) (hint : Prop) [Decidable hint] :
    NoStaler s (if hint then s.cache.fill s.payloads line else s.cache) := by
  intro addr len fresh
  split
  · exact fresh.fill line
  · exact fresh

theorem NoStaler.fillRange {cache : LineCache} (h : NoStaler s cache) (from_ count : Nat) :
    NoStaler s (cache.fillRange s.payloads from_ count) :=
  fun addr len fresh => (h addr len fresh).fillRange from_ count

theorem Sees.recache {p : Nat} {m : BandleMessage} (h : Sees r s p m) {cache : LineCache}
    (noStaler : NoStaler s cache) (out : Nat → BandleMessage) :
    Sees r { s with out := out, cache := cache } p m :=
  h.imp id (noStaler _ _)

theorem Sees.load {p : Nat} {m : BandleMessage} (h : Sees r s p m) :
    (s.visible r).load (p % r.capacity * kMaxValueBytes) m.body.bytes =
      s.payloads.load (p % r.capacity * kMaxValueBytes) m.body.bytes := by
  unfold SpscRing.visible
  rcases h with coherent | fresh
  · rw [if_pos coherent]
  · split
    · rfl
    · exact fresh.load

/-- A write to the buffer at `j` keeps what lies before it. -/
theorem Copied.write {n j : Nat} (h : Copied s n) (le : n ≤ j) (msg : BandleMessage)
    (cache : LineCache) : Copied { s with out := Function.update s.out j msg, cache := cache } n := by
  intro k below
  obtain ⟨m, found, same⟩ := h k below
  refine ⟨m, found, ?_⟩
  dsimp only
  rw [Function.update_of_ne (by omega)]
  exact same

theorem Accepted.write {lo hi j : Nat} (h : Accepted r s lo hi) (outside : j < lo ∨ hi ≤ j)
    (msg : BandleMessage) {cache : LineCache} (noStaler : NoStaler s cache) :
    Accepted r { s with out := Function.update s.out j msg, cache := cache } lo hi := by
  intro k above below
  obtain ⟨m, found, same, sees⟩ := h k above below
  refine ⟨m, found, ?_, sees.recache noStaler _⟩
  dsimp only
  rw [Function.update_of_ne (by omega)]
  exact same

theorem Accepted.shrink {lo lo' hi : Nat} (h : Accepted r s lo hi) (le : lo ≤ lo') :
    Accepted r s lo' hi :=
  fun k above below => h k (Nat.le_trans le above) below

theorem Copied.push {n : Nat} (h : Copied s n)
    (last : ∃ m, s.hist.published[s.hist.committed.length + n]? = some m ∧
      SameMessage m (s.out n)) : Copied s (n + 1) := by
  intro k below
  by_cases here : k = n
  · rw [here]
    exact last
  · exact h k (by omega)

theorem Accepted.push {lo hi : Nat} (h : Accepted r s lo hi)
    (last : ∃ m, s.hist.published[s.hist.committed.length + hi]? = some m ∧
      SameHeader m (s.out hi) ∧ Sees r s (s.hist.committed.length + hi) m) :
    Accepted r s lo (hi + 1) := by
  intro k above below
  by_cases here : k = hi
  · rw [here]
    exact last
  · exact h k above (by omega)

/-- A step of the reader that changes only its buffer, its cache and where it stands. -/
theorem RingInv.setReader (h : RingInv r s) {out : Nat → BandleMessage} {cache : LineCache}
    {pc : ConsumerPc} (inv : ConsumerInv r { s with out := out, cache := cache } pc) :
    RingInv r { s with out := out, cache := cache, consumer := pc } where
  head := h.head
  tail := h.tail
  producerSaw := h.producerSaw
  consumerSaw := h.consumerSaw
  lead := h.lead
  behind := h.behind
  slots := h.slots
  delivered := h.delivered
  producer := h.producer.frame rfl rfl rfl rfl
  consumer := inv.frame rfl rfl (fun _ _ found => found) (Nat.le_refl _)
    fun _ _ _ _ sees => sees

theorem RingInv.evict (h : RingInv r s) (line : Nat) :
    RingInv r { s with cache := s.cache.evict line } := by
  refine h.setReader (h.consumer.frame rfl rfl (fun _ _ found => found) (Nat.le_refl _) ?_)
  intro p m _ _ sees
  exact sees.imp id fun fresh => fresh.evict line

/-! ### Consumer steps -/

/-- The message at a position the consumer may read, in its slot. -/
theorem RingInv.readable (h : RingInv r s) {tail count j : Nat}
    (reading : Reading s.hist.committed.length (s.hist.headCount s.consumerSaw) tail count)
    (inside : j < count) :
    ∃ m, s.hist.published[s.hist.committed.length + j]? = some m ∧
      SlotHolds r s.descs s.payloads (s.hist.committed.length + j) m := by
  have available := reading.available
  have seen := h.seenHead_le
  have below : s.hist.committed.length + j < s.hist.published.length := by omega
  have found := List.getElem?_eq_getElem below
  exact ⟨_, found, h.slots _ _ (Nat.le_add_right _ _) found⟩

theorem RingInv.startPop (h : RingInv r s) {call : PopCall}
    (stepped : s.startPopStep call = some t) : RingInv r t := by
  unfold SpscRing.startPopStep at stepped
  split at stepped
  · cases stepped
    exact h.setConsumer trivial
  · cases stepped

theorem RingInv.loadTailOwn (h : RingInv r s) (stepped : s.loadTailOwnStep = some t) :
    RingInv r t := by
  unfold SpscRing.loadTailOwnStep at stepped
  split at stepped
  · cases stepped
    exact h.setConsumer h.tail.value_eq
  · cases stepped

theorem RingInv.loadHeadPeer (h : RingInv r s) {v : Nat}
    (stepped : s.loadHeadPeerStep v = some t) : RingInv r t := by
  unfold SpscRing.loadHeadPeerStep at stepped
  split at stepped
  · next call tail pc =>
    split at stepped
    · next may =>
      cases stepped
      have tailEq := h.consumer
      rw [pc] at tailEq
      simp only [ConsumerInv] at tailEq
      obtain ⟨value, newer, now⟩ := h.head.loaded may
      have behind := h.behind
      have occupied := h.occupancy
      have small := capacity_small r
      have distance := sub64_mod (p := s.hist.headCount v) (q := s.hist.committed.length)
        (by omega) (by omega)
      rw [value, tailEq, distance]
      refine { h with
        consumerSaw := may.2
        behind := Nat.le_trans behind newer
        producer := h.producer.frame rfl rfl rfl rfl
        consumer := ?_ }
      dsimp only
      split
      · trivial
      · next some =>
        refine ⟨⟨rfl, ?_⟩, Nat.zero_le _, fun k below => absurd below (Nat.not_lt_zero k),
          fun k _ below => absurd below (Nat.not_lt_zero k)⟩
        dsimp only
        cases call with
        | pop =>
          simp only [PopCall.wanted]
          omega
        | drain maxBatch =>
          simp only [PopCall.wanted]
          omega
    · cases stepped
  · cases stepped

theorem ConsumerInv.afterDescriptors {call : PopCall} {tail count read c tries : Nat}
    (h : ConsumerInv r s (.descriptor call tail count read c tries)) :
    ConsumerInv r s (SpscRing.afterDescriptors call tail count read c) := by
  obtain ⟨reading, within, copied, accepted⟩ := h
  unfold SpscRing.afterDescriptors
  split
  · exact ⟨reading, by omega, copied⟩
  · exact ⟨reading, within, by omega, copied, accepted⟩

theorem ConsumerInv.accept {call : PopCall} {tail count read c tries : Nat}
    (h : ConsumerInv r s (.descriptor call tail count read c tries)) (inside : read + c < count)
    {m msg : BandleMessage}
    (found : s.hist.published[s.hist.committed.length + (read + c)]? = some m)
    (same : SameHeader m msg) (sees : Sees r s (s.hist.committed.length + (read + c)) m)
    {cache : LineCache} (noStaler : NoStaler s cache) :
    ConsumerInv r { s with out := Function.update s.out (read + c) msg, cache := cache }
      (SpscRing.nextDescriptor call tail count read (c + 1)) := by
  obtain ⟨reading, within, copied, accepted⟩ := h
  have before := copied.write (Nat.le_add_right read c) msg cache
  have after := (accepted.write (Or.inr (Nat.le_refl _)) msg noStaler).push
    ⟨m, found, by dsimp only; rw [Function.update_self]; exact same, sees.recache noStaler _⟩
  unfold SpscRing.nextDescriptor
  split
  · exact ⟨reading, by omega, before, after⟩
  · exact ⟨reading, by omega, by omega, before, after⟩

theorem RingInv.readDescriptor (h : RingInv r s) {prefetch : Bool}
    (uncached : r.coherent = true ∨ AcceptsUncached r s (.readDescriptor prefetch))
    (stepped : s.readDescriptorStep r prefetch = some t) : RingInv r t := by
  unfold SpscRing.readDescriptorStep at stepped
  split at stepped
  · next call tail count read c tries pc =>
    have inv := h.consumer
    rw [pc] at inv
    split at stepped
    · cases stepped
      exact h.setConsumer inv.afterDescriptors
    · next more =>
      have inside : read + c < count := by omega
      have reading := inv.1
      obtain ⟨m, found, held⟩ := h.readable reading inside
      have looks : looksAt s.consumer = some (add64 tail (read + c)) := by
        rw [pc]
        exact if_pos inside
      have view := uncached.imp id fun accepts => accepts _ looks
      dsimp only at stepped
      rw [reading.tail, slot_add64, add64_mod, add64_mod, held.descriptor] at stepped view
      -- the descriptor is the one of the next message, so it is accepted
      have fits : ¬ (descriptorOf ((s.hist.committed.length + (read + c) + 1) % 2 ^ 64) m).bytes >
          kMaxValueBytes := Nat.not_lt.mpr held.fits
      rw [if_neg (by simp [descriptorOf]), if_neg fits] at stepped
      cases stepped
      rw [← reading.tail]
      refine h.setReader
        (inv.accept inside found (SameHeader.fill ..) ?_ (NoStaler.prefetch s _ _))
      exact view.imp id fun accepts => (accepts rfl).fresh
  · cases stepped

/-- The copied bytes are those that were pushed. -/
theorem SameHeader.copy {m got : BandleMessage} (h : SameHeader m got) {src : Mem} {addr : Nat}
    (bytes : src.load addr m.body.bytes = m.body.data.load 0 m.body.bytes) :
    SameMessage m { got with body := { got.body with
      data := got.body.data.store 0 (src.load addr got.body.bytes) } } := by
  have header : SameHeader m { got with body := { got.body with
      data := got.body.data.store 0 (src.load addr got.body.bytes) } } := h
  apply header.message
  rw [h.bytes, bytes]
  exact Mem.load_store_load _ _ _ _ _ _ (Nat.le_refl _)

/-- After message `i` the reader goes on with the next one or returns. -/
theorem ConsumerInv.nextPayload {call : PopCall} {tail count read c i : Nat}
    (reading : Reading s.hist.committed.length (s.hist.headCount s.consumerSaw) tail count)
    (within : read + c ≤ count) (inside : i < c) (copied : Copied s (read + i + 1))
    (accepted : Accepted r s (read + i + 1) (read + c)) :
    ConsumerInv r s (if i + 1 < c then .payload call tail count read c (i + 1)
      else .returned call tail count (read + c)) := by
  split
  · next more => exact ⟨reading, within, more, copied, accepted⟩
  · next last =>
    have all : i + 1 = c := by omega
    rw [Nat.add_assoc, all] at copied
    exact ⟨reading, within, copied⟩

theorem RingInv.readPayload (h : RingInv r s) {prefetch : Bool}
    (stepped : s.readPayloadStep r prefetch = some t) : RingInv r t := by
  unfold SpscRing.readPayloadStep at stepped
  split at stepped
  · next call tail count read c i pc =>
    have inv := h.consumer
    rw [pc] at inv
    obtain ⟨reading, within, inside, copied, accepted⟩ := inv
    obtain ⟨m, found, same, sees⟩ := accepted (read + i) (Nat.le_refl _) (by omega)
    have held := h.slots _ m (Nat.le_add_right _ _) found
    have rest := accepted.shrink (Nat.le_succ (read + i))
    have tailEq := reading.tail
    subst tail
    dsimp only at stepped
    rw [slot_add64] at stepped
    split at stepped
    · next empty =>
      cases stepped
      have none : m.body.bytes = 0 := by rw [← same.bytes, empty]
      refine h.setConsumer (ConsumerInv.nextPayload reading within inside (copied.push ?_) rest)
      exact ⟨m, found, same.message (by rw [none]; rfl)⟩
    · cases stepped
      refine h.setReader (ConsumerInv.nextPayload reading within inside ?_ ?_)
      · refine (copied.write (Nat.le_refl _) _ _).push ⟨m, found, ?_⟩
        dsimp only
        rw [Function.update_self]
        exact same.copy (sees.load.trans held.payload)
      · exact rest.write (Or.inl (Nat.lt_succ_self _)) _ ((NoStaler.prefetch s _ _).fillRange _ _)
  · cases stepped

/-- Another call of `read_batch_at_abs`, behind the messages already read. -/
theorem RingInv.retry (h : RingInv r s) (stepped : s.retryStep = some t) : RingInv r t := by
  unfold SpscRing.retryStep at stepped
  split at stepped
  · next maxBatch tail count read pc =>
    split at stepped
    · cases stepped
      have inv := h.consumer
      rw [pc] at inv
      obtain ⟨reading, within, copied⟩ := inv
      exact h.setConsumer ⟨reading, within, copied, fun k above below => absurd below (by omega)⟩
    · cases stepped
  · cases stepped

/-- What was read may be committed, also when it is less than was asked for. -/
theorem ConsumerInv.commit {call : PopCall} {tail count read : Nat}
    (h : ConsumerInv r s (.returned call tail count read)) :
    ConsumerInv r s (.commit tail read) := by
  obtain ⟨reading, within, copied⟩ := h
  have available := reading.available
  exact ⟨⟨reading.tail, by omega⟩, copied⟩

theorem RingInv.finish (h : RingInv r s) (stepped : s.finishStep = some t) : RingInv r t := by
  unfold SpscRing.finishStep at stepped
  split at stepped
  · next call tail count read pc =>
    split at stepped
    · cases stepped
      have inv := h.consumer
      rw [pc] at inv
      exact h.setConsumer inv.commit
    · cases stepped
  · cases stepped

theorem RingInv.quit (h : RingInv r s) (stepped : s.quitStep = some t) : RingInv r t := by
  unfold SpscRing.quitStep at stepped
  split at stepped
  · next call tail count read pc =>
    split at stepped
    · cases stepped
      have inv := h.consumer
      rw [pc] at inv
      apply h.setConsumer
      split
      · trivial
      · exact inv.commit
    · cases stepped
  · cases stepped

theorem RingInv.storeTail (h : RingInv r s) (stepped : s.storeTailStep = some t) :
    RingInv r t := by
  unfold SpscRing.storeTailStep at stepped
  split at stepped
  · next tail read pc =>
    cases stepped
    have inv := h.consumer
    rw [pc] at inv
    obtain ⟨reading, copied⟩ := inv
    have counted := h.tail.store (s.hist.committed.length + read) (by omega)
    have seen : Function.update s.hist.tailCount (s.tail.latest + 1)
        (s.hist.committed.length + read) s.producerSaw = s.hist.tailCount s.producerSaw :=
      SharedLocation.Counts.seen_store h.producerSaw
    have length : (s.hist.committed ++ (List.range read).map s.out).length =
        s.hist.committed.length + read := by simp
    constructor
    · exact h.head
    · dsimp only
      rw [reading.tail, add64_mod, length]
      exact counted
    · exact Nat.le_succ_of_le h.producerSaw
    · exact h.consumerSaw
    · dsimp only
      rw [seen]
      exact h.lead
    · dsimp only
      rw [length]
      exact reading.available
    · intro p m above held
      dsimp only at above held
      rw [length] at above
      exact h.slots p m (by omega) held
    · intro k m held
      dsimp only at held
      rw [List.getElem?_append] at held
      split at held
      · exact h.delivered k m held
      · next late =>
        rw [List.getElem?_map, Option.map_eq_some_iff] at held
        obtain ⟨j, position, message⟩ := held
        have inside := (List.getElem?_eq_some_iff.mp position).1
        rw [List.length_range] at inside
        rw [List.getElem?_range inside] at position
        cases position
        obtain ⟨sent, found, same⟩ := copied _ inside
        rw [Nat.add_sub_of_le (by omega)] at found
        rw [message] at same
        exact ⟨sent, found, same⟩
    · exact h.producer.frame rfl rfl rfl seen
    · trivial
  · cases stepped

/-! ### Runs -/

theorem RingInv.step (h : RingInv r s) {a : RingAction}
    (uncached : r.coherent = true ∨ AcceptsUncached r s a)
    (stepped : (ringSystem r).step s a = some t) : RingInv r t := by
  cases a with
  | startPush call => exact h.startPush stepped
  | loadHeadOwn => exact h.loadHeadOwn stepped
  | loadTailPeer v => exact h.loadTailPeer stepped
  | storePayload => exact h.storePayload stepped
  | storeDescriptor => exact h.storeDescriptor stepped
  | storeHead => exact h.storeHead stepped
  | abandon => exact h.abandon stepped
  | startPop call => exact h.startPop stepped
  | loadTailOwn => exact h.loadTailOwn stepped
  | loadHeadPeer v => exact h.loadHeadPeer stepped
  | readDescriptor prefetch => exact h.readDescriptor uncached stepped
  | readPayload prefetch => exact h.readPayload stepped
  | retry => exact h.retry stepped
  | finish => exact h.finish stepped
  | quit => exact h.quit stepped
  | storeTail => exact h.storeTail stepped
  | evict line =>
    cases stepped
    exact h.evict line

theorem ring_reachable
    (h : (ringSystem r).ReachableUnder (fun s a => r.coherent = true ∨ AcceptsUncached r s a) s) :
    RingInv r s := by
  refine h.invariant ?_ fun s a t _ inv uncached stepped => inv.step uncached stepped
  rintro s ⟨descs, out, rfl⟩
  exact .initial descs out

end BandleCxl.Invariant
