import BandleCxl.Invariant.Deferral
import BandleCxl.Source.Cluster

/-!
Batched handling equals one-at-a-time handling. `handle_messages_batch` executes
once per chunk, `handle_message` after every message, so the two runs pass through
different logs: a later message of a chunk meets entries that the other run has
executed and reset. The relation between them is that the batched node is behind by
an execution: executing what it has ready gives a node that matches the other one.
-/
namespace BandleCxl.Guarantees
open Library Source Bandle Invariant

variable {hash : Bytes → Nat} {tsc tsc' : Nat → Nat} {hi : Nat}

/-- The log entry a node holds for a number, with its payload. -/
def entryAt (n : Bandle) (q : Nat) : Option (LogEntry × Mem) :=
  if (n.log (slotOf q)).seq = q then some (n.log (slotOf q), n.logPayloads (slotOf q)) else none

/-! ### What both runs keep -/

/-- All numbers in the log are below `hi`, which is at most a lap ahead, and what is
decided and not executed is accepted. -/
structure InWindow (hi : Nat) (n : Bandle) : Prop where
  lap : hi ≤ n.executeNext + kCompletionSlots
  below : ∀ q, (n.log (slotOf q)).seq < hi
  accepting : ∀ q, n.executeNext ≤ q → (n.log (slotOf q)).seq = q →
    (n.log (slotOf q)).decided = true → (n.log (slotOf q)).decision = 1

/-- The messages the runs are about: numbers of the lap below `hi`, decisions 1. -/
structure Within (hi : Nat) (m : BandleMessage) : Prop where
  recent : hi ≤ m.body.seq + kCompletionSlots
  inside : m.body.seq < hi
  accepts : m.type = .decide → m.body.value = 1

theorem messageEntry_accepts {quorum : Nat} {m : BandleMessage} {e : LogEntry} (payload : Mem)
    (within : Within hi m) (before : e.decided = true → e.decision = 1) :
    (messageEntry quorum m e payload).1.decided = true →
      (messageEntry quorum m e payload).1.decision = 1 := by
  unfold messageEntry
  split
  · exact fun _ => rfl
  · dsimp only
    split
    · exact fun _ => rfl
    · exact before
  · next type =>
    dsimp only
    split
    · exact before
    · exact fun _ => within.accepts type
  · exact before

theorem InWindow.write {n : Bandle} {m : BandleMessage} (h : InWindow hi n) (within : Within hi m) :
    InWindow hi (writeMessage n m) := by
  refine ⟨by simpa using h.lap, writeMessage_below h.below within.inside, ?_⟩
  intro q from_ seq
  rw [writeMessage_next] at from_
  by_cases here : slotOf q = slotOf m.body.seq
  · cases touched : touches n.cfg m with
    | true =>
      rw [here, (writeMessage_self touched).1] at seq ⊢
      rw [messageEntry_seq, claimEntry_seq] at seq
      apply messageEntry_accepts _ within
      intro decided
      unfold claimEntry at decided ⊢
      split at decided
      · simp [resetLogEntry] at decided
      · next same =>
        rw [if_neg same]
        subst q
        exact h.accepting m.body.seq from_ (not_not.mp same) decided
    | false =>
      rw [writeMessage_untouched touched] at seq ⊢
      exact h.accepting q from_ seq
  · rw [(writeMessage_other n m here).1] at seq ⊢
    exact h.accepting q from_ seq

theorem InWindow.advance (hash : Bytes → Nat) (tsc : Nat → Nat) {n : Bandle} (h : InWindow hi n) :
    InWindow hi (n.advanceExecuteLocked hash tsc) := by
  have run := advance_readyRun hash tsc n
  have le := run.le
  have lap := h.lap
  refine ⟨by omega, ?_, ?_⟩
  · intro q
    have old := h.below q
    rcases run.log_cases (slotOf q) with reset | kept
    · rw [reset]
      exact Nat.lt_of_le_of_lt (Nat.zero_le _) old
    · rw [kept]
      exact old
  · intro q from_ seq decided
    rcases run.log_cases (slotOf q) with reset | kept
    · rw [reset] at decided
      cases decided
    · rw [kept] at seq decided ⊢
      exact h.accepting q (by omega) seq decided

theorem InWindow.handlers (hash : Bytes → Nat) (tsc : Nat → Nat) (hi : Nat) :
    HandlerRule hash tsc (Within hi) (InWindow hi) where
  write _ _ within h := h.write within
  frame _ _ _ h := ⟨h.lap, h.below, h.accepting⟩
  advance _ h := h.advance hash tsc

/-! ### One message -/

/-- Executing after a message in a chunk is executing after its slot write. -/
theorem inChunk_matches (hash : Bytes → Nat) (tsc : Nat → Nat) (st : Bandle × Bool)
    (m : BandleMessage) (window : InWindow hi (writeMessage st.1 m)) :
    Matches 0 hi ((writeMessage st.1 m).advanceExecuteLocked hash tsc)
      ((handleInChunk hash tsc st m).1.advanceExecuteLocked hash tsc) := by
  have same : Matches 0 hi (writeMessage st.1 m) (writeMessage st.1 m) :=
    .refl window.lap window.below
  rcases inChunk_cases hash tsc st m with ⟨hist, -, eq⟩ | eq
  · rw [eq]
    exact (same.hist hist).advance hash tsc tsc
  · rw [eq, advance_of_drained (advance_drained _)]
    exact same.advance hash tsc tsc

/-- So is `handle_message` on a node that had nothing ready. -/
theorem message_matches (hash : Bytes → Nat) (tsc : Nat → Nat) {n : Bandle} (m : BandleMessage)
    (drained : ¬ n.Executable n.executeNext) (window : InWindow hi (writeMessage n m)) :
    Matches 0 hi ((writeMessage n m).advanceExecuteLocked hash tsc) (n.handleMessage hash tsc m) := by
  have same : Matches 0 hi (writeMessage n m) (writeMessage n m) :=
    .refl window.lap window.below
  rcases handleMessage_cases hash tsc n m with ⟨hist, -, eq⟩ | ⟨eq, idle⟩
  · rw [eq]
    exact (same.hist hist).advance hash tsc tsc
  · rw [eq, advance_of_drained (idle drained)]
    exact same

/-- A message written before or after the outstanding execution. There are three
kinds of numbers: already executed in both runs, executed in one of them, and not
executed in either. -/
theorem write_deferred (hash : Bytes → Nat) (tsc : Nat → Nat) {n : Bandle} {m : BandleMessage}
    (h : InWindow hi n) (within : Within hi m) :
    Matches 0 hi
      ((writeMessage (n.advanceExecuteLocked hash tsc) m).advanceExecuteLocked hash tsc)
      ((writeMessage n m).advanceExecuteLocked hash tsc) := by
  have executed := h.advance hash tsc
  have run := advance_readyRun hash tsc n
  have lap := h.lap
  have lap' := executed.lap
  have inside := within.inside
  have recent := within.recent
  rcases Nat.lt_or_ge m.body.seq (n.advanceExecuteLocked hash tsc).executeNext with old | new
  · have unchanged : Matches 0 hi
        ((writeMessage (n.advanceExecuteLocked hash tsc) m).advanceExecuteLocked hash tsc)
        (n.advanceExecuteLocked hash tsc) := by
      have written := Matches.stale lap' executed.below old recent inside
      have ended := written.advance hash tsc tsc
      rw [advance_of_drained (advance_drained n)] at ended
      exact ended
    apply unchanged.trans
    rcases Nat.lt_or_ge m.body.seq n.executeNext with older | covered
    · exact ((Matches.stale lap h.below older recent inside).advance hash tsc tsc).symm
    · have ready := run.ready m.body.seq covered old
      have accepted := h.accepting m.body.seq covered ready.1 ready.2.1
      have written := Matches.covered lap h.below covered old inside ready accepted
      exact (written.advance hash tsc tsc).symm.full (Nat.le_refl _)
  · obtain ⟨out, single, -, eq⟩ := advance_spec hash tsc n
    have next : out.1.executeNext = (n.advanceExecuteLocked hash tsc).executeNext := by rw [eq]
    have log : out.1.log = (n.advanceExecuteLocked hash tsc).log := by rw [eq]
    -- the outstanding run stays away from the slot, so the write commutes with it
    have ahead : m.body.seq < n.executeNext + kCompletionSlots := by omega
    have moved := ExecRun.write single (m := m) (by omega) ahead
    have outWindow : InWindow hi out.1 :=
      ⟨by omega, fun q => by rw [log]; exact executed.below q, fun q => by
        rw [log, next]; exact executed.accepting q⟩
    have writtenOut := outWindow.write within
    have ended := Matches.advance_run moved writtenOut.lap writtenOut.below rfl
    have matched : Matches 0 hi (n.advanceExecuteLocked hash tsc) out.1 := by
      rw [eq]
      exact ((Matches.refl outWindow.lap outWindow.below).hist _).symm
    exact ((matched.write (by omega) inside).advance hash tsc tsc).trans ended

/-! ### Runs -/

/-- The batched node `b` is behind `a` by an execution. -/
structure Behind (hash : Bytes → Nat) (tsc : Nat → Nat) (hi : Nat) (a b : Bandle) : Prop where
  drained : ¬ a.Executable a.executeNext
  window : InWindow hi b
  aligned : Matches 0 hi a (b.advanceExecuteLocked hash tsc)

theorem Behind.step {a b : Bandle} {flag : Bool} {m : BandleMessage} (h : Behind hash tsc hi a b)
    (windowA : InWindow hi a) (within : Within hi m) :
    Behind hash tsc hi (a.handleMessage hash tsc' m) (handleInChunk hash tsc (b, flag) m).1 := by
  refine ⟨drained_handleMessage m h.drained, (InWindow.handlers hash tsc hi).inChunk within h.window, ?_⟩
  have single := message_matches hash tsc' m h.drained (windowA.write within)
  have batched := inChunk_matches hash tsc (b, flag) m (h.window.write within)
  have deferred := write_deferred hash tsc h.window within
  refine single.symm.trans (Matches.trans ?_ (deferred.trans batched))
  -- the same write on two matching nodes
  rcases Nat.lt_or_ge m.body.seq a.executeNext with old | new
  · have stale := Matches.stale windowA.lap windowA.below old within.recent within.inside
    have executed := h.window.advance hash tsc
    have stale' := Matches.stale executed.lap executed.below (by rw [h.aligned.next]; exact old)
      within.recent within.inside
    exact ((stale.trans h.aligned).trans stale'.symm).advance hash tsc' tsc
  · exact (h.aligned.write new within.inside).advance hash tsc' tsc

/-- Where the two runs stand before and after a list of messages. -/
theorem Behind.fold (tsc' : Nat → Nat) {a b : Bandle} (flag : Bool) {msgs : List BandleMessage}
    (h : Behind hash tsc hi a b) (windowA : InWindow hi a) (within : ∀ m ∈ msgs, Within hi m) :
    Behind hash tsc hi (msgs.foldl (handleMessage hash tsc') a)
      (msgs.foldl (handleInChunk hash tsc) (b, flag)).1 := by
  induction msgs generalizing a b flag with
  | nil => exact h
  | cons m rest ih =>
    have first := within m (by simp)
    exact ih (handleInChunk hash tsc (b, flag) m).2 (h.step windowA first)
      ((InWindow.handlers hash tsc' hi).message first windowA)
      fun m' member => within m' (by simp [member])

/-- The end of a chunk executes or has nothing to execute. -/
theorem Behind.chunk (tsc' : Nat → Nat) {a b : Bandle} {msgs : List BandleMessage}
    (h : Behind hash tsc hi a b) (windowA : InWindow hi a) (within : ∀ m ∈ msgs, Within hi m) :
    Behind hash tsc hi (msgs.foldl (handleMessage hash tsc') a) (b.handleChunk hash tsc msgs) := by
  have folded := h.fold tsc' false windowA within
  unfold handleChunk
  dsimp only
  split
  · refine ⟨folded.drained, folded.window.advance hash tsc, ?_⟩
    rw [advance_of_drained (advance_drained _)]
    exact folded.aligned
  · exact folded

theorem Behind.batch (tsc' : Nat → Nat) {a b : Bandle} {msgs : List BandleMessage}
    (h : Behind hash tsc hi a b) (windowA : InWindow hi a) (within : ∀ m ∈ msgs, Within hi m) :
    Behind hash tsc hi (msgs.foldl (handleMessage hash tsc') a)
      (b.handleMessagesBatch hash tsc msgs) := by
  fun_induction handleMessagesBatch hash tsc b msgs generalizing a with
  | case1 b msgs empty =>
    rw [List.isEmpty_iff.mp empty]
    exact h
  | case2 b msgs some ih =>
    have first : ∀ m ∈ msgs.take kHandleChunk, Within hi m :=
      fun m member => within m (List.mem_of_mem_take member)
    have step := h.chunk tsc' windowA first
    have rest := ih step ((InWindow.handlers hash tsc' hi).messages first windowA)
      fun m member => within m (List.mem_of_mem_drop member)
    rw [← List.foldl_append, List.take_append_drop] at rest
    exact rest

theorem drained_handleMessagesBatch {n : Bandle} (msgs : List BandleMessage)
    (drained : ¬ n.Executable n.executeNext) :
    ¬ (n.handleMessagesBatch hash tsc msgs).Executable
      (n.handleMessagesBatch hash tsc msgs).executeNext := by
  fun_induction handleMessagesBatch hash tsc n msgs with
  | case1 n msgs empty => exact drained
  | case2 n msgs some ih => exact ih (drained_handleChunk _ drained)

/-- From any node with nothing ready, numbers at most a lap ahead and nothing rejected:
handling a list of messages in chunks and handling them one by one end with the same
store, the same progress, the same accounting up to latencies, and the same entries
for every number that is not executed. The two runs may read different clocks. -/
theorem batched_as_single (hash : Bytes → Nat) (tsc tsc' : Nat → Nat) (n : Bandle)
    (msgs : List BandleMessage) (drained : ¬ n.Executable n.executeNext)
    (stored : ∀ k < kCompletionSlots, (n.log k).seq < n.executeNext + kCompletionSlots)
    (accepted : ∀ k < kCompletionSlots, (n.log k).decided = true →
      n.executeNext ≤ (n.log k).seq → (n.log k).decision = 1)
    (near : ∀ m ∈ msgs, n.executeNext ≤ m.body.seq ∧
      m.body.seq < n.executeNext + kCompletionSlots)
    (decides : ∀ m ∈ msgs, m.type = .decide → m.body.value = 1) :
    (n.handleMessagesBatch hash tsc msgs).kv = (msgs.foldl (handleMessage hash tsc') n).kv ∧
    (n.handleMessagesBatch hash tsc msgs).executeNext =
      (msgs.foldl (handleMessage hash tsc') n).executeNext ∧
    untimed (n.handleMessagesBatch hash tsc msgs).acct =
      untimed (msgs.foldl (handleMessage hash tsc') n).acct ∧
    ∀ q, (n.handleMessagesBatch hash tsc msgs).executeNext ≤ q →
      entryAt (n.handleMessagesBatch hash tsc msgs) q =
        entryAt (msgs.foldl (handleMessage hash tsc') n) q := by
  have window : InWindow (n.executeNext + kCompletionSlots) n := by
    refine ⟨Nat.le_refl _, fun q => stored _ (slotOf_lt q), ?_⟩
    intro q from_ seq decided
    exact accepted _ (slotOf_lt q) decided (by omega)
  have within : ∀ m ∈ msgs, Within (n.executeNext + kCompletionSlots) m := by
    intro m member
    obtain ⟨from_, upto⟩ := near m member
    exact ⟨by omega, upto, decides m member⟩
  have start : Behind hash tsc (n.executeNext + kCompletionSlots) n n := by
    refine ⟨drained, window, ?_⟩
    rw [advance_of_drained drained]
    exact .refl window.lap window.below
  have ends := (start.batch tsc' window within).aligned
  rw [advance_of_drained (drained_handleMessagesBatch msgs drained)] at ends
  refine ⟨ends.kv, ends.next, ends.acct, ?_⟩
  intro q from_
  rw [ends.next] at from_
  rcases Nat.lt_or_ge q (n.executeNext + kCompletionSlots) with inside | beyond
  · obtain ⟨-, payload, full⟩ := ends.window q from_ inside
    simp only [entryAt, full (Nat.zero_le q), payload]
  · -- no entry of a number a lap ahead is in either log
    have absent := ends.below q
    have absent' := ends.below' q
    rw [entryAt, entryAt, if_neg (by omega), if_neg (by omega)]

/-- A write that arrives before its predecessor, the predecessor twice with different
contents, and a decision without a proposal. -/
def reordered : List BandleMessage :=
  [{ body := { seq := 2, op := opP, keyLen := 1, valueLen := 1, data := Mem.ofBytes [1, 2] } },
    { body := { seq := 1 } },
    { body := { seq := 1, op := opG } },
    { type := .decide, body := { seq := 3 } }]

/-- In chunks the second copy finds its entry, one by one it finds the slot reset. -/
theorem batched_as_single_reordered :
    (reordered.foldl (handleMessage List.length fun _ => 0)
      (Bandle.started (defaultSettings 0) .empty 0)).executeNext = 3 ∧
    ((Bandle.started (defaultSettings 0) .empty 0).handleMessagesBatch List.length (fun _ => 0)
      reordered).executeNext =
    (reordered.foldl (handleMessage List.length fun _ => 0)
      (Bandle.started (defaultSettings 0) .empty 0)).executeNext := by
  refine ⟨rfl, ?_⟩
  refine (batched_as_single List.length (fun _ => 0) (fun _ => 0)
    (Bandle.started (defaultSettings 0) .empty 0) reordered ?_ ?_ ?_ ?_ ?_).2.1
  · decide
  · intro k _
    change 0 < 1 + 65536
    decide
  · intro k _ decided
    cases decided
  · intro m member
    simp only [reordered, List.mem_cons, List.not_mem_nil, or_false] at member
    rcases member with rfl | rfl | rfl | rfl
    · change 1 ≤ 2 ∧ 2 < 1 + 65536
      decide
    · change 1 ≤ 1 ∧ 1 < 1 + 65536
      decide
    · change 1 ≤ 1 ∧ 1 < 1 + 65536
      decide
    · change 1 ≤ 3 ∧ 3 < 1 + 65536
      decide
  · intro m member
    simp only [reordered, List.mem_cons, List.not_mem_nil, or_false] at member
    rcases member with rfl | rfl | rfl | rfl <;> intro _ <;> rfl

end BandleCxl.Guarantees
