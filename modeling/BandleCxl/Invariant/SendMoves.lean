import BandleCxl.Invariant.BroadcastSteps
import BandleCxl.Invariant.RingConsumer

/-!
What a step of a sender shows: where the thread goes, and the messages that a ring takes in.
`SendMove` lists the possibilities once; what the ring's producer does in between is not seen.
-/
namespace BandleCxl.Invariant
open Library Source SendSide

/-- From one place of the holder of `send_mu_` to the next, with what is sent to whom. -/
inductive SendMove (peers : List NodeId) (running : Bool) :
    SendPc → SendPc → Option (NodeId × List BandleMessage) → Prop
  | lockMsg {msg : BandleMessage} :
      SendMove peers running (.entered (.broadcast msg)) (.pushTop msg peers) none
  | lockBatch {batch : MessageArray} :
      SendMove peers running (.entered (.broadcastBatch batch)) (.batchTop batch) none
  | runs {batch : MessageArray} (on : running = true) :
      SendMove peers running (.batchTop batch) (.asking batch peers) none
  | halts {batch : MessageArray} (off : running = false) :
      SendMove peers running (.batchTop batch) .leaving none
  | pushes {msg : BandleMessage} {p : NodeId} {todo : List NodeId} (on : running = true) :
      SendMove peers running (.pushTop msg (p :: todo)) (.pushing msg (p :: todo)) none
  | skips {msg : BandleMessage} {p : NodeId} {todo : List NodeId} (off : running = false) :
      SendMove peers running (.pushTop msg (p :: todo)) (.pushTop msg todo) none
  | pushed {msg : BandleMessage} : SendMove peers running (.pushTop msg []) .leaving none
  | asks {batch : MessageArray} {todo todo' : List NodeId} :
      SendMove peers running (.asking batch todo) (.asking batch todo') none
  | full {batch : MessageArray} {todo : List NodeId} :
      SendMove peers running (.asking batch todo) (.batchTop batch) none
  | roomy {batch : MessageArray} {todo : List NodeId} :
      SendMove peers running (.asking batch todo) (.writing batch peers) none
  | writes {batch : MessageArray} {todo todo' : List NodeId} :
      SendMove peers running (.writing batch todo) (.writing batch todo') none
  | refused {batch : MessageArray} {todo : List NodeId} (long : ¬Fits batch.msgs = true) :
      SendMove peers running (.writing batch todo) .leaving none
  | filled {batch : MessageArray} {todo : List NodeId} :
      SendMove peers running (.writing batch todo) (.publishing batch peers) none
  | publishes {batch : MessageArray} {p q : NodeId} {todo : List NodeId} :
      SendMove peers running (.publishing batch (p :: q :: todo)) (.publishing batch (q :: todo))
        (some (p, batch.msgs))
  | published {batch : MessageArray} {p : NodeId} :
      SendMove peers running (.publishing batch [p]) .leaving (some (p, batch.msgs))
  | goesOn {msg : BandleMessage} {todo : List NodeId} :
      SendMove peers running (.pushing msg todo) (.pushing msg todo) none
  | noRoom {msg : BandleMessage} {todo : List NodeId} :
      SendMove peers running (.pushing msg todo) (.pushTop msg todo) none
  | sends {msg : BandleMessage} {p : NodeId} {todo : List NodeId} :
      SendMove peers running (.pushing msg (p :: todo)) (.pushTop msg todo) (some (p, [msg]))

/-- What peer `p` is sent. -/
def sentTo (p : NodeId) : Option (NodeId × List BandleMessage) → List BandleMessage
  | some (q, msgs) => if p = q then msgs else []
  | none => []

/-- The reader of a ring stands where it stood. -/
structure SameReader (ring ring' : SpscRing) : Prop where
  consumer : ring'.consumer = ring.consumer
  committed : ring'.hist.committed = ring.hist.committed
  out : ring'.out = ring.out

theorem SameReader.refl (ring : SpscRing) : SameReader ring ring := ⟨rfl, rfl, rfl⟩

theorem SameReader.trans {a b c : SpscRing} (first : SameReader a b) (second : SameReader b c) :
    SameReader a c where
  consumer := second.consumer.trans first.consumer
  committed := second.committed.trans first.committed
  out := second.out.trans first.out

variable {ι : Type*} [DecidableEq ι] {r : RingShape} {i : NodeId} {s s' : SendSide ι}

theorem storeHead_reader {ring ring' : SpscRing} (stepped : ring.storeHeadStep = some ring') :
    SameReader ring ring' := by
  unfold SpscRing.storeHeadStep at stepped
  split at stepped
  · cases stepped
    exact ⟨rfl, rfl, rfl⟩
  · cases stepped

/-- An access of the producer does not touch the reader. -/
theorem access_reader {ring ring' : SpscRing} {call : PushCall} {v : Nat}
    (stepped : ring.access r call v = some ring') : SameReader ring ring' := by
  unfold SpscRing.access at stepped
  split at stepped
  · simp only [SpscRing.startPushStep] at stepped
    repeat' split at stepped
    all_goals cases stepped <;> exact ⟨rfl, rfl, rfl⟩
  · simp only [SpscRing.loadHeadOwnStep] at stepped
    split at stepped
    all_goals cases stepped <;> exact ⟨rfl, rfl, rfl⟩
  · simp only [SpscRing.loadTailPeerStep] at stepped
    repeat' split at stepped
    all_goals cases stepped <;> exact ⟨rfl, rfl, rfl⟩
  · simp only [SpscRing.storePayloadStep] at stepped
    repeat' split at stepped
    all_goals cases stepped <;> exact ⟨rfl, rfl, rfl⟩
  · simp only [SpscRing.storeDescriptorStep] at stepped
    repeat' split at stepped
    all_goals cases stepped <;> exact ⟨rfl, rfl, rfl⟩
  · exact storeHead_reader stepped

theorem abandoned_reader (ring : SpscRing) : SameReader ring (abandoned ring) := by
  unfold abandoned SpscRing.abandonStep
  cases ring.producer <;> exact ⟨rfl, rfl, rfl⟩

/-- What a step of thread `t` changes. -/
structure Moved (i : NodeId) (s : SendSide ι) (t : ι) (s' : SendSide ι) : Prop where
  running : s'.running = s.running
  others : ∀ u, u ≠ t → s'.pc u = s.pc u
  readers : ∀ p, SameReader (s.ring p) (s'.ring p)
  move : ∃ sent, SendMove (peersOf i) s.running (s.pc t) (s'.pc t) sent ∧
    ∀ p, (s'.ring p).hist.published = (s.ring p).hist.published ++ sentTo p sent

/-- A step that touches no ring. -/
theorem Moved.here (owner : Option ι) (locked : List (ι × List BandleMessage)) {t : ι}
    {old pc : SendPc} (here : s.pc t = old) (move : SendMove (peersOf i) s.running old pc none) :
    Moved i s t { s.setPc t pc with owner := owner, locked := locked } where
  running := rfl
  others u other := Function.update_of_ne other _ _
  readers p := .refl _
  move := by
    refine ⟨none, ?_, fun p => (List.append_nil _).symm⟩
    simp only [SendSide.setPc, Function.update_self]
    rw [here]
    exact move

theorem moved_lock {t : ι} (stepped : s.lockStep i t = some s') : Moved i s t s' := by
  unfold SendSide.lockStep at stepped
  split at stepped
  · next msg here free =>
    cases stepped
    exact .here _ _ here .lockMsg
  · next batch here free =>
    cases stepped
    exact .here _ _ here .lockBatch
  · cases stepped

theorem moved_loadRunning {t : ι} (stepped : s.loadRunningStep i t = some s') : Moved i s t s' := by
  unfold SendSide.loadRunningStep at stepped
  split at stepped
  · next batch here =>
    cases stepped
    refine .here s.owner s.locked here ?_
    split
    · next on => exact .runs on
    · next off => exact .halts (Bool.eq_false_iff.mpr off)
  · next msg p todo here =>
    cases stepped
    refine .here s.owner s.locked here ?_
    split
    · next on => exact .pushes on
    · next off => exact .skips (Bool.eq_false_iff.mpr off)
  · next msg here =>
    cases stepped
    exact .here s.owner s.locked here .pushed
  · cases stepped

/-- An access on the ring to `p`, after which the thread is at `pc`. -/
theorem Moved.onRing (log : List (ι × List BandleMessage)) {t : ι} {p : NodeId}
    {ring : SpscRing} {ring' : NodeId → SpscRing} {old pc : SendPc} {msgs : List BandleMessage}
    {sent : Option (NodeId × List BandleMessage)}
    (here : s.pc t = old) (reader : SameReader (s.ring p) ring)
    (published : ring.hist.published = (s.ring p).hist.published ++ msgs)
    (rings : ∀ q, SameReader (Function.update s.ring p ring q) (ring' q) ∧
      (ring' q).hist.published = (Function.update s.ring p ring q).hist.published)
    (told : sentTo p sent = msgs ∧ ∀ q, q ≠ p → sentTo q sent = [])
    (move : SendMove (peersOf i) s.running old pc sent) :
    Moved i s t { s with ring := ring', pc := Function.update s.pc t pc, log := log } where
  running := rfl
  others u other := Function.update_of_ne other _ _
  readers q := by
    refine .trans ?_ (rings q).1
    by_cases same : q = p
    · subst q
      rw [Function.update_self]
      exact reader
    · rw [Function.update_of_ne same]
      exact .refl _
  move := by
    refine ⟨sent, ?_, fun q => ?_⟩
    · dsimp only
      rw [here, Function.update_self]
      exact move
    · rw [(rings q).2]
      by_cases same : q = p
      · subst q
        rw [Function.update_self, published, told.1]
      · rw [Function.update_of_ne same, told.2 q same, List.append_nil]

/-- Rings as they are after an access, also where the others are given up. -/
theorem kept_rings (rings : NodeId → SpscRing) (q : NodeId) :
    SameReader (rings q) (rings q) ∧ (rings q).hist.published = (rings q).hist.published :=
  ⟨.refl _, rfl⟩

theorem abandoned_rings (rings : NodeId → SpscRing) (q : NodeId) :
    SameReader (rings q) (abandoned (rings q)) ∧
      (abandoned (rings q)).hist.published = (rings q).hist.published :=
  ⟨abandoned_reader _, abandoned_published _⟩

/-- A step that stays where it is and publishes nothing. -/
theorem Moved.stays {t : ι} {p : NodeId} {ring : SpscRing} (reader : SameReader (s.ring p) ring)
    (published : ring.hist.published = (s.ring p).hist.published)
    (move : SendMove (peersOf i) s.running (s.pc t) (s.pc t) none) :
    Moved i s t (s.setRing p ring) := by
  have moved : Moved i s t { s with
      ring := Function.update s.ring p ring
      pc := Function.update s.pc t (s.pc t)
      log := s.log } :=
    .onRing _ rfl reader (published.trans (List.append_nil _).symm) (kept_rings _)
      ⟨rfl, fun _ _ => rfl⟩ move
  rwa [Function.update_eq_self] at moved

theorem moved_asking (h : SendInv r i s) {t : ι} {batch : MessageArray} {p : NodeId}
    {todo : List NodeId} (here : s.pc t = .asking batch (p :: todo)) {v : Nat} {ring : SpscRing}
    (accessed : (s.ring p).access r (.batch batch.msgs) v = some ring) :
    Moved i s t ((s.setRing p ring).afterAsking i t batch todo ring.producer) := by
  have places := (h.holder here trivial).places
  obtain ⟨sent, produced, published⟩ := produces_access accessed
  obtain ⟨rfl, outcome⟩ := places.first.access produced
  have reader := access_reader accessed
  have quiet : sentTo p none = [] ∧ ∀ q, q ≠ p → sentTo q none = [] := ⟨rfl, fun _ _ => rfl⟩
  rcases outcome with asks | ⟨head, new⟩ | idle
  · have stays : (s.setRing p ring).afterAsking i t batch todo ring.producer =
        s.setRing p ring := by
      rcases asks with new | ⟨head, new⟩ <;> simp only [new, SendSide.afterAsking]
    rw [stays]
    refine .stays reader (by rw [published, List.append_nil]) ?_
    rw [here]
    exact .asks
  · simp only [new, SendSide.afterAsking]
    refine .onRing s.log here reader published (kept_rings _) quiet ?_
    cases todo with
    | nil => exact .roomy
    | cons q todo => exact .asks
  · have new : ring.producer = .idle := idle
    simp only [new, SendSide.afterAsking]
    exact .onRing s.log here reader published (abandoned_rings _) quiet .full

theorem moved_writing (h : SendInv r i s) {t : ι} {batch : MessageArray} {p : NodeId}
    {todo : List NodeId} (here : s.pc t = .writing batch (p :: todo)) {v : Nat} {ring : SpscRing}
    (accessed : (s.ring p).access r (.batch batch.msgs) v = some ring) :
    Moved i s t ((s.setRing p ring).afterWriting i t batch todo ring.producer) := by
  have places := (h.holder here trivial).places
  obtain ⟨sent, produced, published⟩ := produces_access accessed
  obtain ⟨rfl, outcome⟩ := places.first.access produced
  have reader := access_reader accessed
  have quiet : sentTo p none = [] ∧ ∀ q, q ≠ p → sentTo q none = [] := ⟨rfl, fun _ _ => rfl⟩
  rcases outcome with fills | ⟨⟨head, new⟩, -⟩ | ⟨idle, long⟩
  · have stays : (s.setRing p ring).afterWriting i t batch todo ring.producer =
        s.setRing p ring := by
      rcases fills with ⟨head, k, new, -⟩ | ⟨head, k, new, -⟩ <;>
        simp only [new, SendSide.afterWriting]
    rw [stays]
    refine .stays reader (by rw [published, List.append_nil]) ?_
    rw [here]
    exact .writes
  · simp only [new, SendSide.afterWriting]
    refine .onRing s.log here reader published (kept_rings _) quiet ?_
    cases todo with
    | nil => exact .filled
    | cons q todo => exact .writes
  · have new : ring.producer = .idle := idle
    simp only [new, SendSide.afterWriting]
    exact .onRing s.log here reader published (abandoned_rings _) quiet (.refused long)

theorem sentTo_self (p : NodeId) (msgs : List BandleMessage) :
    sentTo p (some (p, msgs)) = msgs ∧ ∀ q, q ≠ p → sentTo q (some (p, msgs)) = [] :=
  ⟨if_pos rfl, fun _ other => if_neg other⟩

theorem moved_publishing (h : SendInv r i s) {t : ι} {batch : MessageArray} {p : NodeId}
    {todo : List NodeId} (here : s.pc t = .publishing batch (p :: todo)) {ring : SpscRing}
    (stepped : (s.ring p).storeHeadStep = some ring) :
    Moved i s t { (s.setRing p ring).setPc t
        (if todo.isEmpty then .leaving else .publishing batch todo) with
      log := logFirst i s.log t batch.msgs (p :: todo) } := by
  have places := (h.holder here trivial).places
  obtain ⟨sent, produced, published⟩ := produces_storeHead (.batch batch.msgs) stepped
  obtain ⟨-, rfl, -⟩ := places.first.access produced
  refine .onRing _ here (storeHead_reader stepped) published (kept_rings _) (sentTo_self p _) ?_
  cases todo with
  | nil => exact .published
  | cons q todo => exact .publishes

theorem moved_pushing (h : SendInv r i s) {t : ι} {msg : BandleMessage} {p : NodeId}
    {todo : List NodeId} (here : s.pc t = .pushing msg (p :: todo)) {v : Nat} {ring : SpscRing}
    (accessed : (s.ring p).access r (.push msg) v = some ring) :
    Moved i s t ((s.setRing p ring).afterPushing i t msg p todo (s.ring p).producer.publishes
      ring.producer) := by
  have places := (h.holder here trivial).places
  obtain ⟨sent, produced, published⟩ := produces_access accessed
  have reader := access_reader accessed
  rcases places.first.access produced with ⟨stores, idle, rfl, -⟩ | ⟨other, rfl, goesOn | idle⟩
  · have new : ring.producer = .idle := idle
    simp only [stores, new, SendSide.afterPushing, if_true]
    exact .onRing _ here reader published (kept_rings _) (sentTo_self p _) .sends
  · have stays : (s.setRing p ring).afterPushing i t msg p todo (s.ring p).producer.publishes
        ring.producer = s.setRing p ring := by
      unfold SendSide.afterPushing
      split
      · next new => exact absurd new goesOn.1
      · rfl
    rw [stays]
    refine .stays reader (by rw [published, List.append_nil]) ?_
    rw [here]
    exact .goesOn
  · have new : ring.producer = .idle := idle
    simp only [other, new, SendSide.afterPushing, Bool.false_eq_true, if_false]
    exact .onRing s.log here reader published (kept_rings _) ⟨rfl, fun _ _ => rfl⟩ .noRoom

theorem moved_access (h : SendInv r i s) {t : ι} {v : Nat}
    (stepped : s.accessStep r i t v = some s') : Moved i s t s' := by
  unfold SendSide.accessStep at stepped
  split at stepped
  · next batch p todo here =>
    split at stepped
    · next ring accessed =>
      cases stepped
      exact moved_asking h here accessed
    · cases stepped
  · next batch p todo here =>
    split at stepped
    · next ring accessed =>
      cases stepped
      exact moved_writing h here accessed
    · cases stepped
  · next batch p todo here =>
    split at stepped
    · next ring stored =>
      cases stepped
      exact moved_publishing h here stored
    · cases stepped
  · next msg p todo here =>
    split at stepped
    · next ring accessed =>
      cases stepped
      exact moved_pushing h here accessed
    · cases stepped
  · cases stepped

end BandleCxl.Invariant
