import BandleCxl.Source.SpscRing

/-!
The ring invariant. With `H` messages published and `T` committed, the counters
are `H` and `T` modulo `2 ^ 64`, the slots of `T .. H - 1` hold the published
messages, and what either thread has loaded of the other's counter is safe to act
on: the producer stays within a lap of the tail it has seen, the consumer within
the head it has seen. Payload bytes the consumer is about to copy are those in
memory provided it held no line of the slot when it accepted the descriptor.
-/
namespace BandleCxl.Invariant
open Library Source

/-! ### Positions and slots -/

variable {r : RingShape}

theorem capacity_small (r : RingShape) : r.capacity * 1088 ≤ 2 ^ 64 := r.addressable

theorem bits_le (r : RingShape) : r.bits ≤ 64 := by
  have bound := capacity_small r
  have pow : 2 ^ r.bits ≤ 2 ^ 64 := by
    unfold RingShape.capacity at bound
    omega
  exact (Nat.pow_le_pow_iff_right (by decide)).mp pow

/-- The slot of a position is its remainder, whatever lap the counter is in. -/
theorem slot_add64 (r : RingShape) (p i : Nat) :
    r.slot (add64 (p % 2 ^ 64) i) = (p + i) % r.capacity := by
  have laps : 2 ^ r.bits ∣ 2 ^ 64 := Nat.pow_dvd_pow 2 (bits_le r)
  unfold RingShape.slot RingShape.capacity add64
  rw [Nat.and_two_pow_sub_one_eq_mod, Nat.mod_mod_of_dvd _ laps, Nat.add_mod,
    Nat.mod_mod_of_dvd _ laps, ← Nat.add_mod]

theorem add64_mod (p i : Nat) : add64 (p % 2 ^ 64) i = (p + i) % 2 ^ 64 := by
  unfold add64
  omega

theorem sub64_mod {p q : Nat} (le : q ≤ p) (near : p - q < 2 ^ 64) :
    sub64 (p % 2 ^ 64) (q % 2 ^ 64) = p - q := by
  unfold sub64
  omega

/-- Positions less than a lap apart lie in different slots. -/
theorem slot_ne {cap p q : Nat} (lt : p < q) (near : q < p + cap) : p % cap ≠ q % cap := by
  intro same
  have lap := Nat.le_of_dvd (by omega) (Nat.dvd_of_mod_eq_zero (Nat.sub_mod_eq_zero_of_mod_eq same.symm))
  omega

/-! ### Messages in slots -/

/-- A delivered message equals the pushed one in every field the ring carries. -/
structure SameMessage (sent got : BandleMessage) : Prop where
  type : got.type = sent.type
  seq : got.body.seq = sent.body.seq
  round : got.body.round = sent.body.round
  sender : got.body.sender = sent.body.sender
  proposer : got.body.proposer = sent.body.proposer
  clientReqId : got.body.clientReqId = sent.body.clientReqId
  startTsc : got.body.startTsc = sent.body.startTsc
  value : got.body.value = sent.body.value
  promise : got.body.promise = sent.body.promise
  op : got.body.op = sent.body.op
  keyLen : got.body.keyLen = sent.body.keyLen
  valueLen : got.body.valueLen = sent.body.valueLen
  data : got.body.data.load 0 (sent.body.keyLen + sent.body.valueLen) =
    sent.body.data.load 0 (sent.body.keyLen + sent.body.valueLen)

/-- Equal in everything but the payload bytes. -/
def SameHeader (sent got : BandleMessage) : Prop := descriptorOf 0 got = descriptorOf 0 sent

theorem SameHeader.fill (sent out : BandleMessage) (slotSeq : Nat) :
    SameHeader sent (fillFrom (descriptorOf slotSeq sent) out) := rfl

theorem SameHeader.bytes {sent got : BandleMessage} (h : SameHeader sent got) :
    got.body.bytes = sent.body.bytes :=
  congrArg BandleDescriptor.bytes h

theorem SameHeader.message {sent got : BandleMessage} (h : SameHeader sent got)
    (data : got.body.data.load 0 sent.body.bytes = sent.body.data.load 0 sent.body.bytes) :
    SameMessage sent got where
  type := congrArg BandleDescriptor.type h
  seq := congrArg BandleDescriptor.seq h
  round := congrArg BandleDescriptor.round h
  sender := congrArg BandleDescriptor.sender h
  proposer := congrArg BandleDescriptor.proposer h
  clientReqId := congrArg BandleDescriptor.clientReqId h
  startTsc := congrArg BandleDescriptor.startTsc h
  value := congrArg BandleDescriptor.value h
  promise := congrArg BandleDescriptor.promise h
  op := congrArg BandleDescriptor.op h
  keyLen := congrArg BandleDescriptor.keyLen h
  valueLen := congrArg BandleDescriptor.valueLen h
  data := data

/-- The slot of position `p` holds message `m`. -/
structure SlotHolds (r : RingShape) (descs : Nat → BandleDescriptor) (payloads : Mem) (p : Nat)
    (m : BandleMessage) : Prop where
  fits : m.body.bytes ≤ kMaxValueBytes
  descriptor : descs (p % r.capacity) = descriptorOf ((p + 1) % 2 ^ 64) m
  payload : payloads.load (p % r.capacity * kMaxValueBytes) m.body.bytes =
    m.body.data.load 0 m.body.bytes

variable {descs : Nat → BandleDescriptor} {payloads : Mem} {p q : Nat} {m : BandleMessage}

/-- Writing the payload of another slot. -/
theorem SlotHolds.storePayload (h : SlotHolds r descs payloads p m) (data : Mem) {len : Nat}
    (fits : len ≤ kMaxValueBytes) (other : p % r.capacity ≠ q % r.capacity) :
    SlotHolds r descs (ntStorePayloadPadded payloads (q % r.capacity) data len) p m := by
  have size := h.fits
  refine ⟨h.fits, h.descriptor, ?_⟩
  rw [← h.payload]
  refine Mem.load_congr fun a lo hi => ?_
  exact ntStorePayloadPadded_other payloads data fits other lo (by omega)

theorem SlotHolds.storeDescriptor (h : SlotHolds r descs payloads p m) (d : BandleDescriptor)
    (other : p % r.capacity ≠ q % r.capacity) :
    SlotHolds r (Function.update descs (q % r.capacity) d) payloads p m := by
  refine ⟨h.fits, ?_, h.payload⟩
  rw [Function.update_of_ne other]
  exact h.descriptor

/-! ### The invariant -/

/-- The first `i` messages of a batch are in the slots after the published ones. -/
def Written (r : RingShape) (s : SpscRing) (msgs : List BandleMessage) (i : Nat) : Prop :=
  ∀ k m, k < i → msgs[k]? = some m →
    SlotHolds r s.descs s.payloads (s.hist.published.length + k) m

/-- With `published` messages published and `seen` known to be committed, the producer
may write `msgs` from head `h` on. -/
structure Writing (r : RingShape) (published seen h : Nat) (msgs : List BandleMessage) : Prop where
  head : h = published % 2 ^ 64
  room : published + msgs.length ≤ seen + r.capacity

/-- An array a call can be made with. -/
def Callable (msgs : List BandleMessage) : Prop :=
  msgs ≠ [] ∧ msgs.length * kMaxValueBytes ≤ 2 ^ 64

def ProducerInv (r : RingShape) (s : SpscRing) : ProducerPc → Prop
  | .idle => True
  | .called call => Callable call.msgs
  | .gotHead call h => Callable call.msgs ∧ h = s.hist.published.length % 2 ^ 64
  | .payload h msgs i =>
    Writing r s.hist.published.length (s.hist.tailCount s.producerSaw) h msgs ∧ i < msgs.length ∧
      Written r s msgs i
  | .descriptor h msgs i =>
    Writing r s.hist.published.length (s.hist.tailCount s.producerSaw) h msgs ∧ Written r s msgs i ∧
      ∃ m, msgs[i]? = some m ∧ m.body.bytes ≤ kMaxValueBytes ∧
        s.payloads.load ((s.hist.published.length + i) % r.capacity * kMaxValueBytes)
          m.body.bytes = m.body.data.load 0 m.body.bytes
  | .publish h msgs =>
    Writing r s.hist.published.length (s.hist.tailCount s.producerSaw) h msgs ∧
      Written r s msgs msgs.length

/-- The first `n` messages of the buffer are the next `n` published ones. -/
def Copied (s : SpscRing) (n : Nat) : Prop :=
  ∀ k < n, ∃ m, s.hist.published[s.hist.committed.length + k]? = some m ∧ SameMessage m (s.out k)

/-- The reader sees the payload of position `p` as it is in memory. -/
def Sees (r : RingShape) (s : SpscRing) (p : Nat) (m : BandleMessage) : Prop :=
  r.coherent = true ∨
    s.cache.Fresh s.payloads (p % r.capacity * kMaxValueBytes) m.body.bytes

/-- From `lo` up to `hi` the buffer has the fields of the published messages. -/
def Accepted (r : RingShape) (s : SpscRing) (lo hi : Nat) : Prop :=
  ∀ k, lo ≤ k → k < hi → ∃ m, s.hist.published[s.hist.committed.length + k]? = some m ∧
    SameHeader m (s.out k) ∧ Sees r s (s.hist.committed.length + k) m

/-- With `committed` messages committed and `seen` known to be published, the consumer
may read `count` messages from tail `t` on. -/
structure Reading (committed seen t count : Nat) : Prop where
  tail : t = committed % 2 ^ 64
  available : committed + count ≤ seen

def ConsumerInv (r : RingShape) (s : SpscRing) : ConsumerPc → Prop
  | .idle => True
  | .called _ => True
  | .gotTail _ t => t = s.hist.committed.length % 2 ^ 64
  | .descriptor _ t count read c _ =>
    Reading s.hist.committed.length (s.hist.headCount s.consumerSaw) t count ∧ read + c ≤ count ∧
      Copied s read ∧ Accepted r s read (read + c)
  | .payload _ t count read c i =>
    Reading s.hist.committed.length (s.hist.headCount s.consumerSaw) t count ∧ read + c ≤ count ∧
      i < c ∧ Copied s (read + i) ∧ Accepted r s (read + i) (read + c)
  | .returned _ t count read =>
    Reading s.hist.committed.length (s.hist.headCount s.consumerSaw) t count ∧ read ≤ count ∧
      Copied s read
  | .commit t read =>
    Reading s.hist.committed.length (s.hist.headCount s.consumerSaw) t read ∧ Copied s read

structure RingInv (r : RingShape) (s : SpscRing) : Prop where
  head : s.head.Counts (· % 2 ^ 64) s.hist.headCount s.hist.published.length
  tail : s.tail.Counts (· % 2 ^ 64) s.hist.tailCount s.hist.committed.length
  producerSaw : s.producerSaw ≤ s.tail.latest
  consumerSaw : s.consumerSaw ≤ s.head.latest
  lead : s.hist.published.length ≤ s.hist.tailCount s.producerSaw + r.capacity
  behind : s.hist.committed.length ≤ s.hist.headCount s.consumerSaw
  slots : ∀ p m, s.hist.committed.length ≤ p → s.hist.published[p]? = some m →
    SlotHolds r s.descs s.payloads p m
  delivered : ∀ (k : Nat) m, s.hist.committed[k]? = some m →
    ∃ sent, s.hist.published[k]? = some sent ∧ SameMessage sent m
  producer : ProducerInv r s s.producer
  consumer : ConsumerInv r s s.consumer

variable {s t : SpscRing}

theorem RingInv.seenTail_le (h : RingInv r s) :
    s.hist.tailCount s.producerSaw ≤ s.hist.committed.length :=
  (h.tail.loaded ⟨Nat.le_refl _, h.producerSaw⟩).2.2

theorem RingInv.seenHead_le (h : RingInv r s) :
    s.hist.headCount s.consumerSaw ≤ s.hist.published.length :=
  (h.head.loaded ⟨Nat.le_refl _, h.consumerSaw⟩).2.2

/-- Occupancy. -/
theorem RingInv.occupancy (h : RingInv r s) :
    s.hist.committed.length ≤ s.hist.published.length ∧
      s.hist.published.length ≤ s.hist.committed.length + r.capacity := by
  have seenTail := h.seenTail_le
  have seenHead := h.seenHead_le
  have lead := h.lead
  have behind := h.behind
  omega

theorem RingInv.initial (descs : Nat → BandleDescriptor) (out : Nat → BandleMessage) :
    RingInv r (SpscRing.initial descs out) where
  head := .init 0 rfl
  tail := .init 0 rfl
  producerSaw := Nat.le_refl 0
  consumerSaw := Nat.le_refl 0
  lead := Nat.zero_le _
  behind := Nat.le_refl 0
  slots p m _ found := by simp [SpscRing.initial] at found
  delivered k m found := by simp [SpscRing.initial] at found
  producer := trivial
  consumer := trivial

/-! ### Frames -/

/-- The consumer's facts survive a step that only adds published messages and keeps
what the reader sees of them. -/
theorem ConsumerInv.frame {pc : ConsumerPc} (h : ConsumerInv r s pc)
    (committed : t.hist.committed = s.hist.committed) (out : t.out = s.out)
    (published : ∀ (p : Nat) m, s.hist.published[p]? = some m → t.hist.published[p]? = some m)
    (seen : s.hist.headCount s.consumerSaw ≤ t.hist.headCount t.consumerSaw)
    (sees : ∀ p m, s.hist.committed.length ≤ p → s.hist.published[p]? = some m →
      Sees r s p m → Sees r t p m) : ConsumerInv r t pc := by
  have reading : ∀ {tail count}, Reading s.hist.committed.length
      (s.hist.headCount s.consumerSaw) tail count → Reading t.hist.committed.length
      (t.hist.headCount t.consumerSaw) tail count := by
    intro tail count old
    rw [committed]
    exact ⟨old.tail, Nat.le_trans old.available seen⟩
  have copied : ∀ {n}, Copied s n → Copied t n := by
    intro n old k below
    obtain ⟨m, found, same⟩ := old k below
    rw [committed, out]
    exact ⟨m, published _ m found, same⟩
  have accepted : ∀ {lo hi}, Accepted r s lo hi → Accepted r t lo hi := by
    intro lo hi old k above below
    obtain ⟨m, found, same, view⟩ := old k above below
    rw [committed, out]
    exact ⟨m, published _ m found, same, sees _ m (Nat.le_add_right _ _) found view⟩
  cases pc with
  | idle => trivial
  | called => trivial
  | gotTail call tail =>
    simp only [ConsumerInv, committed] at h ⊢
    exact h
  | descriptor => exact ⟨reading h.1, h.2.1, copied h.2.2.1, accepted h.2.2.2⟩
  | payload =>
    exact ⟨reading h.1, h.2.1, h.2.2.1, copied h.2.2.2.1, accepted h.2.2.2.2⟩
  | returned => exact ⟨reading h.1, h.2.1, copied h.2.2⟩
  | commit => exact ⟨reading h.1, copied h.2⟩

/-- The producer's facts survive a step that leaves slots and published messages alone. -/
theorem ProducerInv.frame {pc : ProducerPc} (h : ProducerInv r s pc)
    (published : t.hist.published = s.hist.published) (descs : t.descs = s.descs)
    (payloads : t.payloads = s.payloads)
    (seen : t.hist.tailCount t.producerSaw = s.hist.tailCount s.producerSaw) :
    ProducerInv r t pc := by
  cases pc <;> simp only [ProducerInv, Written, published, descs, payloads, seen] at h ⊢ <;> exact h

theorem RingInv.setProducer (h : RingInv r s) {pc : ProducerPc} (inv : ProducerInv r s pc) :
    RingInv r { s with producer := pc } where
  head := h.head
  tail := h.tail
  producerSaw := h.producerSaw
  consumerSaw := h.consumerSaw
  lead := h.lead
  behind := h.behind
  slots := h.slots
  delivered := h.delivered
  producer := inv.frame rfl rfl rfl rfl
  consumer := h.consumer.frame rfl rfl (fun _ _ found => found) (Nat.le_refl _)
    fun _ _ _ _ sees => sees

theorem RingInv.setConsumer (h : RingInv r s) {pc : ConsumerPc} (inv : ConsumerInv r s pc) :
    RingInv r { s with consumer := pc } where
  head := h.head
  tail := h.tail
  producerSaw := h.producerSaw
  consumerSaw := h.consumerSaw
  lead := h.lead
  behind := h.behind
  slots := h.slots
  delivered := h.delivered
  producer := h.producer.frame rfl rfl rfl rfl
  consumer := inv.frame rfl rfl (fun _ _ found => found) (Nat.le_refl _)
    fun _ _ _ _ sees => sees

/-! ### Producer steps -/

theorem RingInv.startPush (h : RingInv r s) {call : PushCall}
    (stepped : s.startPushStep call = some t) : RingInv r t := by
  unfold SpscRing.startPushStep at stepped
  split at stepped
  · split at stepped
    · next callable =>
      cases stepped
      exact h.setProducer callable
    · cases stepped
  · cases stepped

theorem RingInv.loadHeadOwn (h : RingInv r s) (stepped : s.loadHeadOwnStep = some t) :
    RingInv r t := by
  unfold SpscRing.loadHeadOwnStep at stepped
  split at stepped
  · next call pc =>
    cases stepped
    have callable := h.producer
    rw [pc] at callable
    exact h.setProducer ⟨callable, h.head.value_eq⟩
  · cases stepped

theorem RingInv.abandon (h : RingInv r s) (stepped : s.abandonStep = some t) : RingInv r t := by
  unfold SpscRing.abandonStep at stepped
  split at stepped
  all_goals
    cases stepped
    try exact h.setProducer trivial

theorem RingInv.loadTailPeer (h : RingInv r s) {v : Nat}
    (stepped : s.loadTailPeerStep r v = some t) : RingInv r t := by
  unfold SpscRing.loadTailPeerStep at stepped
  split at stepped
  · next call head pc =>
    split at stepped
    · next may =>
      cases stepped
      have inv := h.producer
      rw [pc] at inv
      obtain ⟨⟨some, short⟩, headEq⟩ := inv
      obtain ⟨value, newer, now⟩ := h.tail.loaded may
      have lead := h.lead
      have small := capacity_small r
      have size : kMaxValueBytes = 1088 := rfl
      have behind := h.behind
      have seenHead := h.seenHead_le
      refine { h with
        producerSaw := may.2
        lead := Nat.le_trans lead (Nat.add_le_add_right newer _)
        producer := ?_
        consumer := h.consumer.frame rfl rfl (fun _ _ found => found) (Nat.le_refl _)
          fun _ _ _ _ sees => sees }
      dsimp only
      split
      · next room =>
        refine ⟨⟨headEq, ?_⟩, List.length_pos_iff.mpr some, fun k m below => absurd below (by omega)⟩
        dsimp only
        have near : s.hist.published.length - s.hist.tailCount v < 2 ^ 64 := by omega
        have distance := sub64_mod (p := s.hist.published.length) (q := s.hist.tailCount v)
          (by omega) near
        have bound : call.msgs.length * 1088 ≤ 2 ^ 64 := short
        rw [value, headEq] at room
        cases call with
        | push msg =>
          unfold PushCall.HasRoom at room
          rw [distance] at room
          simp only [PushCall.msgs, List.length_singleton]
          omega
        | batch msgs =>
          unfold PushCall.HasRoom add64 at room
          rw [distance] at room
          simp only [PushCall.msgs] at bound ⊢
          omega
      · trivial
    · cases stepped
  · cases stepped

/-- The slot the producer writes next is not one of the occupied ones. -/
theorem RingInv.write_apart (h : RingInv r s) {head i k : Nat} {msgs : List BandleMessage}
    (writing : Writing r s.hist.published.length (s.hist.tailCount s.producerSaw) head msgs)
    (inside : i < msgs.length) (lo : s.hist.committed.length ≤ k)
    (hi : k < s.hist.published.length + i) :
    k % r.capacity ≠ (s.hist.published.length + i) % r.capacity := by
  have room := writing.room
  have seen := h.seenTail_le
  exact slot_ne hi (by omega)

theorem RingInv.storePayload (h : RingInv r s) (stepped : s.storePayloadStep r = some t) :
    RingInv r t := by
  unfold SpscRing.storePayloadStep at stepped
  split at stepped
  · next head msgs i pc =>
    have inv := h.producer
    rw [pc] at inv
    obtain ⟨writing, inside, written⟩ := inv
    split at stepped
    · next msg found =>
      split at stepped
      · cases stepped
        exact h.setProducer trivial
      · next fits =>
        cases stepped
        have fits : msg.body.bytes ≤ kMaxValueBytes := by omega
        have occupied := h.occupancy
        rw [writing.head, slot_add64]
        have apart : ∀ {k}, s.hist.committed.length ≤ k → k < s.hist.published.length + i →
            k % r.capacity ≠ (s.hist.published.length + i) % r.capacity :=
          fun lo hi => h.write_apart writing inside lo hi
        refine { h with
          slots := fun p m above held => ?_
          producer := ⟨⟨rfl, writing.room⟩, fun k m below held => ?_, msg, found, fits, ?_⟩
          consumer := h.consumer.frame rfl rfl (fun _ _ found => found) (Nat.le_refl _) ?_ }
        · have below : p < s.hist.published.length := (List.getElem?_eq_some_iff.mp held).1
          exact (h.slots p m above held).storePayload _ fits (apart above (by omega))
        · exact (written k m below held).storePayload _ fits (apart (by omega) (by omega))
        · exact ntStorePayloadPadded_load _ _ _ _
        · intro p m above held sees
          rcases sees with coherent | fresh
          · exact Or.inl coherent
          · refine Or.inr (fresh.store_elsewhere fun a lo hi => ?_)
            have below := (List.getElem?_eq_some_iff.mp held).1
            have size := (h.slots p m above held).fits
            exact ntStorePayloadPadded_other _ _ fits (apart above (by omega)) lo (by omega)
    · cases stepped
  · cases stepped

theorem RingInv.storeDescriptor (h : RingInv r s) (stepped : s.storeDescriptorStep r = some t) :
    RingInv r t := by
  unfold SpscRing.storeDescriptorStep at stepped
  split at stepped
  · next head msgs i pc =>
    have inv := h.producer
    rw [pc] at inv
    obtain ⟨writing, written, msg, found, fits, payload⟩ := inv
    have inside := (List.getElem?_eq_some_iff.mp found).1
    rw [found] at stepped
    cases stepped
    have occupied := h.occupancy
    have apart : ∀ {k}, s.hist.committed.length ≤ k → k < s.hist.published.length + i →
        k % r.capacity ≠ (s.hist.published.length + i) % r.capacity :=
      fun lo hi => h.write_apart writing inside lo hi
    rw [writing.head, slot_add64, add64_mod, add64_mod]
    -- the batch is written up to and including message `i`
    have extended : ∀ k m, k < i + 1 → msgs[k]? = some m →
        SlotHolds r (Function.update s.descs ((s.hist.published.length + i) % r.capacity)
          (descriptorOf ((s.hist.published.length + i + 1) % 2 ^ 64) msg)) s.payloads
          (s.hist.published.length + k) m := by
      intro k m below held
      by_cases last : k = i
      · subst k
        rw [found] at held
        cases held
        exact ⟨fits, Function.update_self .., payload⟩
      · exact (written k m (by omega) held).storeDescriptor _ (apart (by omega) (by omega))
    refine { h with
      slots := fun p m above held => ?_
      producer := ?_
      consumer := h.consumer.frame rfl rfl (fun _ _ found => found) (Nat.le_refl _)
        fun _ _ _ _ sees => sees }
    · have below : p < s.hist.published.length := (List.getElem?_eq_some_iff.mp held).1
      exact (h.slots p m above held).storeDescriptor _ (apart above (by omega))
    · dsimp only
      split
      · next more => exact ⟨⟨rfl, writing.room⟩, more, extended⟩
      · next last =>
        exact ⟨⟨rfl, writing.room⟩, fun k m below held => extended k m (by omega) held⟩
  · cases stepped

theorem RingInv.storeHead (h : RingInv r s) (stepped : s.storeHeadStep = some t) :
    RingInv r t := by
  unfold SpscRing.storeHeadStep at stepped
  split at stepped
  · next head msgs pc =>
    cases stepped
    have inv := h.producer
    rw [pc] at inv
    obtain ⟨writing, written⟩ := inv
    have keeps : ∀ (p : Nat) m, s.hist.published[p]? = some m →
        (s.hist.published ++ msgs)[p]? = some m := by
      intro p m held
      rw [List.getElem?_append_left (List.getElem?_eq_some_iff.mp held).1]
      exact held
    have counted := h.head.store (s.hist.published.length + msgs.length) (by omega)
    have seen : Function.update s.hist.headCount (s.head.latest + 1)
        (s.hist.published.length + msgs.length) s.consumerSaw = s.hist.headCount s.consumerSaw :=
      SharedLocation.Counts.seen_store h.consumerSaw
    constructor
    · dsimp only
      rw [writing.head, add64_mod, List.length_append]
      exact counted
    · exact h.tail
    · exact h.producerSaw
    · exact Nat.le_succ_of_le h.consumerSaw
    · dsimp only
      rw [List.length_append]
      exact writing.room
    · dsimp only
      rw [seen]
      exact h.behind
    · intro p m above held
      dsimp only at above held ⊢
      rw [List.getElem?_append] at held
      split at held
      · exact h.slots p m above held
      · next late =>
        have inside := (List.getElem?_eq_some_iff.mp held).1
        have slot := written (p - s.hist.published.length) m inside held
        rwa [Nat.add_sub_of_le (by omega)] at slot
    · intro k m held
      obtain ⟨sent, found, same⟩ := h.delivered k m held
      exact ⟨sent, keeps k sent found, same⟩
    · trivial
    · exact h.consumer.frame rfl rfl keeps (Nat.le_of_eq seen.symm) fun _ _ _ _ sees => sees
  · cases stepped

end BandleCxl.Invariant
