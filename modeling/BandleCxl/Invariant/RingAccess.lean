import BandleCxl.Invariant.Control
import BandleCxl.Source.Broadcast

/-!
One ring in the hands of a sender: what an access does to its producer, where the producers
of the rings stand while a loop goes over the peers, and what is left when it gives up.
-/
namespace BandleCxl.Invariant
open Library Source SendSide

/-! ### What an access does to a ring -/

/-- From one place of the producer to the next, with the messages published on the way. -/
inductive Produces (call : PushCall) : ProducerPc → ProducerPc → List BandleMessage → Prop
  | start : Produces call .idle (.called call) []
  | head {c : PushCall} {h : Nat} : Produces call (.called c) (.gotHead c h) []
  | room {c : PushCall} {h : Nat} : Produces call (.gotHead c h) (.payload h c.msgs 0) []
  | full {c : PushCall} {h : Nat} : Produces call (.gotHead c h) .idle []
  | stored {h i : Nat} {msgs : List BandleMessage} {msg : BandleMessage}
      (found : msgs[i]? = some msg) (fits : ¬msg.body.bytes > kMaxValueBytes) :
      Produces call (.payload h msgs i) (.descriptor h msgs i) []
  | refused {h i : Nat} {msgs : List BandleMessage} {msg : BandleMessage}
      (found : msgs[i]? = some msg) (long : msg.body.bytes > kMaxValueBytes) :
      Produces call (.payload h msgs i) .idle []
  | more {h i : Nat} {msgs : List BandleMessage} (inside : i + 1 < msgs.length) :
      Produces call (.descriptor h msgs i) (.payload h msgs (i + 1)) []
  | last {h i : Nat} {msgs : List BandleMessage} (all : ¬i + 1 < msgs.length) :
      Produces call (.descriptor h msgs i) (.publish h msgs) []
  | publish {h : Nat} {msgs : List BandleMessage} : Produces call (.publish h msgs) .idle msgs

theorem produces_storeHead {ring ring' : SpscRing} (call : PushCall)
    (stepped : ring.storeHeadStep = some ring') :
    ∃ sent, Produces call ring.producer ring'.producer sent ∧
      ring'.hist.published = ring.hist.published ++ sent := by
  unfold SpscRing.storeHeadStep at stepped
  split at stepped
  · next h msgs here =>
    cases stepped
    rw [here]
    exact ⟨msgs, .publish, rfl⟩
  · cases stepped

theorem produces_access {r : RingShape} {ring ring' : SpscRing} {call : PushCall} {v : Nat}
    (stepped : ring.access r call v = some ring') :
    ∃ sent, Produces call ring.producer ring'.producer sent ∧
      ring'.hist.published = ring.hist.published ++ sent := by
  unfold SpscRing.access at stepped
  split at stepped
  · next here =>
    simp only [SpscRing.startPushStep, here] at stepped
    split at stepped
    · cases stepped
      rw [here]
      exact ⟨[], .start, (List.append_nil _).symm⟩
    · cases stepped
  · next c here =>
    simp only [SpscRing.loadHeadOwnStep, here] at stepped
    cases stepped
    rw [here]
    exact ⟨[], .head, (List.append_nil _).symm⟩
  · next c h here =>
    simp only [SpscRing.loadTailPeerStep, here] at stepped
    split at stepped
    · cases stepped
      rw [here]
      refine ⟨[], ?_, (List.append_nil _).symm⟩
      dsimp only
      split
      · exact .room
      · exact .full
    · cases stepped
  · next h msgs i here =>
    simp only [SpscRing.storePayloadStep, here] at stepped
    split at stepped
    · next msg found =>
      split at stepped
      · next long =>
        cases stepped
        rw [here]
        exact ⟨[], .refused found long, (List.append_nil _).symm⟩
      · next fits =>
        cases stepped
        rw [here]
        exact ⟨[], .stored found fits, (List.append_nil _).symm⟩
    · cases stepped
  · next h msgs i here =>
    simp only [SpscRing.storeDescriptorStep, here] at stepped
    split at stepped
    · next msg found =>
      cases stepped
      rw [here]
      refine ⟨[], ?_, (List.append_nil _).symm⟩
      dsimp only
      split
      · next inside => exact .more inside
      · next all => exact .last all
    · cases stepped
  · exact produces_storeHead call stepped

/-- A step of the reader leaves the producer alone. -/
theorem consumer_frame {r : RingShape} {ring ring' : SpscRing} {a : RingAction}
    (reads : a.isConsumer = true) (stepped : ring.step r a = some ring') :
    ring'.producer = ring.producer ∧ ring'.hist.published = ring.hist.published := by
  cases a with
  | startPush | loadHeadOwn | loadTailPeer | storePayload | storeDescriptor | storeHead | abandon =>
    cases reads
  | _ =>
    simp only [SpscRing.step, SpscRing.startPopStep, SpscRing.loadTailOwnStep,
      SpscRing.loadHeadPeerStep, SpscRing.readDescriptorStep, SpscRing.readPayloadStep,
      SpscRing.retryStep, SpscRing.finishStep, SpscRing.quitStep, SpscRing.storeTailStep] at stepped
    repeat' split at stepped
    all_goals cases stepped <;> exact ⟨rfl, rfl⟩

theorem access_step {r : RingShape} {ring ring' : SpscRing} {call : PushCall} {v : Nat}
    (stepped : ring.access r call v = some ring') : ∃ a, ring.step r a = some ring' := by
  unfold SpscRing.access at stepped
  split at stepped
  · exact ⟨.startPush call, stepped⟩
  · exact ⟨.loadHeadOwn, stepped⟩
  · exact ⟨.loadTailPeer v, stepped⟩
  · exact ⟨.storePayload, stepped⟩
  · exact ⟨.storeDescriptor, stepped⟩
  · exact ⟨.storeHead, stepped⟩

/-! ### Where the producers of the rings stand -/

/-- The first `i` messages are not too long for a slot. -/
def FitsBelow (msgs : List BandleMessage) (i : Nat) : Prop :=
  ∀ k msg, k < i → msgs[k]? = some msg → ¬msg.body.bytes > kMaxValueBytes

theorem FitsBelow.zero (msgs : List BandleMessage) : FitsBelow msgs 0 :=
  fun _ _ below => absurd below (Nat.not_lt_zero _)

theorem FitsBelow.succ {msgs : List BandleMessage} {i : Nat} {msg : BandleMessage}
    (h : FitsBelow msgs i) (found : msgs[i]? = some msg) (fits : ¬msg.body.bytes > kMaxValueBytes) :
    FitsBelow msgs (i + 1) := by
  intro k other below here
  rcases Nat.lt_succ_iff_lt_or_eq.mp below with lt | rfl
  · exact h k other lt here
  · rw [found] at here
    cases here
    exact fits

/-- No message is too long for a slot. -/
def Fits (msgs : List BandleMessage) : Bool :=
  msgs.all fun msg => !decide (msg.body.bytes > kMaxValueBytes)

theorem fits_of_below {msgs : List BandleMessage} (h : FitsBelow msgs msgs.length) :
    Fits msgs = true := by
  rw [Fits, List.all_eq_true]
  intro msg member
  obtain ⟨k, below, found⟩ := List.getElem_of_mem member
  have fits := h k msg below (List.getElem?_eq_some_iff.mpr ⟨below, found⟩)
  simpa using fits

theorem not_fits_of_long {msgs : List BandleMessage} {i : Nat} {msg : BandleMessage}
    (found : msgs[i]? = some msg) (long : msg.body.bytes > kMaxValueBytes) : ¬Fits msgs = true := by
  intro all
  have fits := List.all_eq_true.mp all msg (List.mem_of_getElem? found)
  simp [long] at fits

def Idle (pc : ProducerPc) : Prop := pc = .idle

/-- Before the answer of `can_push_batch`, or of the same test in `push`. -/
def Asks (call : PushCall) (pc : ProducerPc) : Prop :=
  pc = .idle ∨ pc = .called call ∨ ∃ h, pc = .gotHead call h

def Roomy (msgs : List BandleMessage) (pc : ProducerPc) : Prop := ∃ h, pc = .payload h msgs 0

def Fills (msgs : List BandleMessage) (pc : ProducerPc) : Prop :=
  (∃ h i, pc = .payload h msgs i ∧ FitsBelow msgs i) ∨
    ∃ h i, pc = .descriptor h msgs i ∧ FitsBelow msgs (i + 1)

def Filled (msgs : List BandleMessage) (pc : ProducerPc) : Prop :=
  (∃ h, pc = .publish h msgs) ∧ FitsBelow msgs msgs.length

def Pushes (msg : BandleMessage) (pc : ProducerPc) : Prop :=
  Asks (.push msg) pc ∨ Fills [msg] pc ∨ Filled [msg] pc

/-- The peers the loop has passed, the one it is at and those to come. -/
structure Placed (peers todo : List NodeId) (passed now coming : ProducerPc → Prop)
    (ring : NodeId → SpscRing) : Prop where
  suffix : todo <:+ peers
  passed : ∀ p ∈ peers, p ∉ todo → passed (ring p).producer
  now : ∀ p ∈ todo.head?, now (ring p).producer
  coming : ∀ p ∈ todo.tail, coming (ring p).producer

section
variable {peers todo : List NodeId} {passed now coming : ProducerPc → Prop}
  {ring : NodeId → SpscRing} {p : NodeId} {moved : SpscRing}

theorem Placed.start (all : ∀ p ∈ peers, coming (ring p).producer)
    (weaken : ∀ pc, coming pc → now pc) : Placed peers peers passed now coming ring where
  suffix := List.suffix_refl peers
  passed _ member outside := absurd member outside
  now p first := weaken _ (all p (List.mem_of_mem_head? first))
  coming p later := all p (List.mem_of_mem_tail later)

theorem Placed.first (h : Placed peers (p :: todo) passed now coming ring) :
    now (ring p).producer :=
  h.now p rfl

/-- The loop stays at the same peer. -/
theorem Placed.stay (h : Placed peers (p :: todo) passed now coming ring) (nodup : peers.Nodup)
    {now' : ProducerPc → Prop} (still : now' moved.producer) :
    Placed peers (p :: todo) passed now' coming (Function.update ring p moved) := by
  have absent : p ∉ todo := (List.nodup_cons.mp (nodup.sublist h.suffix.sublist)).1
  refine ⟨h.suffix, fun q member outside => ?_, fun q first => ?_, fun q later => ?_⟩
  · rw [Function.update_of_ne (by rintro rfl; exact outside (List.mem_cons_self ..))]
    exact h.passed q member outside
  · obtain rfl : p = q := Option.some.inj first
    rw [Function.update_self]
    exact still
  · rw [Function.update_of_ne (by rintro rfl; exact absent later)]
    exact h.coming q later

/-- The loop goes on to the next peer. -/
theorem Placed.next (h : Placed peers (p :: todo) passed now coming ring) (nodup : peers.Nodup)
    (done : passed moved.producer) (weaken : ∀ pc, coming pc → now pc) :
    Placed peers todo passed now coming (Function.update ring p moved) := by
  have absent : p ∉ todo := (List.nodup_cons.mp (nodup.sublist h.suffix.sublist)).1
  refine ⟨(List.suffix_cons p todo).trans h.suffix, fun q member outside => ?_, fun q first => ?_,
    fun q later => ?_⟩
  · by_cases same : q = p
    · subst q
      rw [Function.update_self]
      exact done
    · rw [Function.update_of_ne same]
      exact h.passed q member (by simp [same, outside])
  · have inside := List.mem_of_mem_head? first
    rw [Function.update_of_ne (by rintro rfl; exact absent inside)]
    exact weaken _ (h.coming q inside)
  · have inside := List.mem_of_mem_tail later
    rw [Function.update_of_ne (by rintro rfl; exact absent inside)]
    exact h.coming q inside

theorem Placed.all (h : Placed peers (p :: todo) now now now ring) :
    ∀ q ∈ peers, now (ring q).producer := by
  intro q member
  by_cases inside : q ∈ p :: todo
  · rcases List.mem_cons.mp inside with rfl | later
    · exact h.first
    · exact h.coming q later
  · exact h.passed q member inside

theorem Placed.all_passed (h : Placed peers [] passed now coming ring) :
    ∀ p ∈ peers, passed (ring p).producer :=
  fun p member => h.passed p member List.not_mem_nil

end

/-! ### One ring moves -/

theorem Asks.access {call : PushCall} {old new : ProducerPc} {sent : List BandleMessage}
    (asks : Asks call old) (produced : Produces call old new sent) :
    sent = [] ∧
      ((new = .called call ∨ ∃ h, new = .gotHead call h) ∨ Roomy call.msgs new ∨ Idle new) := by
  rcases asks with rfl | rfl | ⟨h, rfl⟩
  · cases produced
    exact ⟨rfl, Or.inl (Or.inl rfl)⟩
  · cases produced
    exact ⟨rfl, Or.inl (Or.inr ⟨_, rfl⟩)⟩
  · cases produced with
    | room => exact ⟨rfl, Or.inr (Or.inl ⟨h, rfl⟩)⟩
    | full => exact ⟨rfl, Or.inr (Or.inr rfl)⟩

theorem Fills.access {call : PushCall} {old new : ProducerPc} {msgs sent : List BandleMessage}
    (fills : Fills msgs old) (produced : Produces call old new sent) :
    sent = [] ∧ (Fills msgs new ∨ Filled msgs new ∨ Idle new ∧ ¬Fits msgs = true) := by
  rcases fills with ⟨h, i, rfl, below⟩ | ⟨h, i, rfl, below⟩
  · cases produced with
    | stored found fits => exact ⟨rfl, Or.inl (Or.inr ⟨h, i, rfl, below.succ found fits⟩)⟩
    | refused found long => exact ⟨rfl, Or.inr (Or.inr ⟨rfl, not_fits_of_long found long⟩)⟩
  · cases produced with
    | more inside => exact ⟨rfl, Or.inl (Or.inl ⟨h, i + 1, rfl, below⟩)⟩
    | last all =>
      refine ⟨rfl, Or.inr (Or.inl ⟨⟨h, rfl⟩, fun k msg inside found => ?_⟩)⟩
      exact below k msg (by omega) found

theorem Filled.access {call : PushCall} {old new : ProducerPc} {msgs sent : List BandleMessage}
    (filled : Filled msgs old) (produced : Produces call old new sent) :
    Idle new ∧ sent = msgs ∧ Fits msgs = true := by
  obtain ⟨⟨h, rfl⟩, below⟩ := filled
  cases produced
  exact ⟨rfl, rfl, fits_of_below below⟩

/-- An access in `push` stores the head, or goes on, or ends the call without having pushed. -/
theorem Pushes.access {msg : BandleMessage} {old new : ProducerPc} {sent : List BandleMessage}
    (pushes : Pushes msg old) (produced : Produces (.push msg) old new sent) :
    (old.publishes = true ∧ Idle new ∧ sent = [msg] ∧ Fits [msg] = true) ∨
      (old.publishes = false ∧ sent = [] ∧ (new ≠ .idle ∧ Pushes msg new ∨ Idle new)) := by
  rcases pushes with asks | fills | filled
  · have before : old.publishes = false := by
      rcases asks with rfl | rfl | ⟨h, rfl⟩ <;> rfl
    obtain ⟨rfl, (rfl | ⟨h, rfl⟩) | ⟨h, rfl⟩ | idle⟩ := asks.access produced
    · exact Or.inr ⟨before, rfl, Or.inl ⟨nofun, Or.inl (Or.inr (Or.inl rfl))⟩⟩
    · exact Or.inr ⟨before, rfl, Or.inl ⟨nofun, Or.inl (Or.inr (Or.inr ⟨h, rfl⟩))⟩⟩
    · exact Or.inr ⟨before, rfl, Or.inl ⟨nofun, Or.inr (Or.inl (Or.inl ⟨h, 0, rfl, .zero _⟩))⟩⟩
    · exact Or.inr ⟨before, rfl, Or.inr idle⟩
  · have before : old.publishes = false := by
      rcases fills with ⟨h, i, rfl, -⟩ | ⟨h, i, rfl, -⟩ <;> rfl
    obtain ⟨rfl, goesOn | filled | ⟨idle, -⟩⟩ := fills.access produced
    · refine Or.inr ⟨before, rfl, Or.inl ⟨?_, Or.inr (Or.inl goesOn)⟩⟩
      rcases goesOn with ⟨h, i, rfl, -⟩ | ⟨h, i, rfl, -⟩ <;> exact nofun
    · refine Or.inr ⟨before, rfl, Or.inl ⟨?_, Or.inr (Or.inr filled)⟩⟩
      obtain ⟨⟨h, rfl⟩, -⟩ := filled
      exact nofun
    · exact Or.inr ⟨before, rfl, Or.inr idle⟩
  · have result := filled.access produced
    obtain ⟨⟨h, rfl⟩, -⟩ := filled
    exact Or.inl ⟨rfl, result⟩

theorem Roomy.fills {msgs : List BandleMessage} {pc : ProducerPc} (roomy : Roomy msgs pc) :
    Fills msgs pc := by
  obtain ⟨h, rfl⟩ := roomy
  exact Or.inl ⟨h, 0, rfl, .zero msgs⟩

/-- `abandonRings` on one ring. -/
def abandoned (ring : SpscRing) : SpscRing := ring.abandonStep.getD ring

theorem abandoned_published (ring : SpscRing) :
    (abandoned ring).hist.published = ring.hist.published := by
  unfold abandoned SpscRing.abandonStep
  cases ring.producer <;> rfl

/-- Not before the answer whether there is room. -/
def Answered (pc : ProducerPc) : Prop := (∀ c, pc ≠ .called c) ∧ ∀ c h, pc ≠ .gotHead c h

theorem Idle.answered {pc : ProducerPc} (idle : Idle pc) : Answered pc := by
  rw [show pc = .idle from idle]
  exact ⟨nofun, nofun⟩

theorem Roomy.answered {msgs : List BandleMessage} {pc : ProducerPc} (roomy : Roomy msgs pc) :
    Answered pc := by
  obtain ⟨h, rfl⟩ := roomy
  exact ⟨nofun, nofun⟩

theorem Filled.answered {msgs : List BandleMessage} {pc : ProducerPc} (filled : Filled msgs pc) :
    Answered pc := by
  obtain ⟨⟨h, rfl⟩, -⟩ := filled
  exact ⟨nofun, nofun⟩

theorem abandoned_idle {ring : SpscRing} (answered : Answered ring.producer) :
    Idle (abandoned ring).producer := by
  unfold abandoned SpscRing.abandonStep
  cases here : ring.producer with
  | idle => exact here
  | called c => exact absurd here (answered.1 c)
  | gotHead c h => exact absurd here (answered.2 c h)
  | payload | descriptor | publish => rfl

theorem Placed.abandon {peers todo : List NodeId} {passed now coming : ProducerPc → Prop}
    {ring : NodeId → SpscRing} {p : NodeId}
    (h : Placed peers (p :: todo) passed now coming ring) (before : ∀ pc, passed pc → Answered pc)
    (here : ∀ pc, now pc → Answered pc) (after : ∀ pc, coming pc → Answered pc) :
    ∀ q ∈ peers, Idle (abandoned (ring q)).producer := by
  have answered : Placed peers (p :: todo) Answered Answered Answered ring :=
    ⟨h.suffix, fun q member outside => before _ (h.passed q member outside),
      fun q first => here _ (h.now q first), fun q later => after _ (h.coming q later)⟩
  exact fun q member => abandoned_idle (answered.all q member)

theorem abandoned_reachable {r : RingShape} {ring : SpscRing} (reached : (ringSystem r).Reachable ring) :
    (ringSystem r).Reachable (abandoned ring) := by
  unfold abandoned
  cases stepped : ring.abandonStep with
  | none => exact reached
  | some after => exact .next .abandon reached stepped

theorem published_update (ring : NodeId → SpscRing) (p : NodeId) (moved : SpscRing) :
    (fun q => (Function.update ring p moved q).hist.published) =
      Function.update (fun q => (ring q).hist.published) p moved.hist.published := by
  funext q
  by_cases same : q = p
  · subst q
    rw [Function.update_self, Function.update_self]
  · rw [Function.update_of_ne same, Function.update_of_ne same]

theorem published_still {ring : NodeId → SpscRing} {p : NodeId} {moved : SpscRing}
    (still : moved.hist.published = (ring p).hist.published) :
    (fun q => (Function.update ring p moved q).hist.published) =
      fun q => (ring q).hist.published := by
  rw [published_update, still, Function.update_eq_self]

end BandleCxl.Invariant
