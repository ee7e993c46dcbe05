import BandleCxl.Invariant.ReadyRun

/-!
The handlers of a node as slot writes. A PROPOSAL, P1 or DECIDE message changes the
one log slot of its number, and the handler may execute afterwards. `messageEntry`
is that change; `recordProposal_write`, `handleP1_write` and `handleDecide_write`
say that the handlers of the source are it. Everything about mixes of messages is
proved from the slot write and from `advance_execute_locked`.
-/
namespace BandleCxl.Invariant
open Library Source Bandle

variable {hash : Bytes → Nat} {tsc : Nat → Nat}

/-- Whether a message gets past the checks of its handler. -/
def touches (cfg : Settings) (m : BandleMessage) : Bool :=
  match m.type with
  | .proposal | .decide => true
  | .p1 => decide (¬ (m.body.value ≠ 1 ∨ m.body.promise = 0 ∨ m.body.sender < 1 ∨
      m.body.sender > cfg.clusterSize))
  | .p2 => false

/-- The entry with one more P1 vote. -/
def voted (m : BandleMessage) (e : LogEntry) : LogEntry :=
  { e with p1Value1PromiseMask := e.p1Value1PromiseMask ||| (1 <<< (m.body.sender - 1)) }

/-- Whether a P1 message completes a quorum for an entry that is not decided. -/
def completesQuorum (quorum : Nat) (m : BandleMessage) (e : LogEntry) : Bool :=
  decide (popcount (voted m e).p1Value1PromiseMask ≥ quorum) && !e.decided

/-- What a message leaves in the slot of its number, before any execution. -/
def messageEntry (quorum : Nat) (m : BandleMessage) (e : LogEntry) (payload : Mem) :
    LogEntry × Mem :=
  match m.type with
  | .proposal =>
    ({ (storeProposal e payload m.body).1 with decided := true, decision := 1 },
      (storeProposal e payload m.body).2)
  | .p1 =>
    (if completesQuorum quorum m e then { voted m e with decided := true, decision := 1 }
      else voted m e, payload)
  | .decide => (if e.decided then e else { e with decided := true, decision := m.body.value }, payload)
  | .p2 => (e, payload)

/-- Write one log slot with its payload. -/
def setSlot (n : Bandle) (k : Nat) (slot : LogEntry × Mem) : Bandle :=
  { n with
    log := Function.update n.log k slot.1
    logPayloads := Function.update n.logPayloads k slot.2 }

/-- The slot write of a message. -/
def writeMessage (n : Bandle) (m : BandleMessage) : Bandle :=
  if touches n.cfg m then
    setSlot n (slotOf m.body.seq) (messageEntry n.cfg.quorum m (n.claimEntry m.body.seq)
      (n.logPayloads (slotOf m.body.seq)))
  else n

theorem claimEntry_seq (n : Bandle) (seq : Nat) : (n.claimEntry seq).seq = seq := by
  unfold claimEntry
  split
  · rfl
  · next same => exact not_not.mp same

theorem storeProposal_seq (e : LogEntry) (payload : Mem) (b : BandlePayload) :
    (storeProposal e payload b).1.seq = e.seq := by
  unfold storeProposal
  dsimp only
  split_ifs <;> rfl

theorem messageEntry_seq (quorum : Nat) (m : BandleMessage) (e : LogEntry) (payload : Mem) :
    (messageEntry quorum m e payload).1.seq = e.seq := by
  unfold messageEntry
  split
  · exact storeProposal_seq e payload m.body
  · dsimp only
    split <;> rfl
  · dsimp only
    split <;> rfl
  · rfl

/-- The handlers never take a decision back. -/
theorem messageEntry_decided (quorum : Nat) (m : BandleMessage) {e : LogEntry} (payload : Mem)
    (decided : e.decided = true) : (messageEntry quorum m e payload).1.decided = true := by
  unfold messageEntry
  split
  · rfl
  · dsimp only
    split
    · rfl
    · exact decided
  · simp only [decided, if_true]
  · exact decided

/-! ### The slot a message writes, and the others -/

@[simp] theorem writeMessage_cfg (n : Bandle) (m : BandleMessage) :
    (writeMessage n m).cfg = n.cfg := by
  unfold writeMessage
  split <;> rfl

@[simp] theorem writeMessage_next (n : Bandle) (m : BandleMessage) :
    (writeMessage n m).executeNext = n.executeNext := by
  unfold writeMessage
  split <;> rfl

@[simp] theorem writeMessage_kv (n : Bandle) (m : BandleMessage) :
    (writeMessage n m).kv = n.kv := by
  unfold writeMessage
  split <;> rfl

@[simp] theorem writeMessage_acct (n : Bandle) (m : BandleMessage) :
    (writeMessage n m).acct = n.acct := by
  unfold writeMessage
  split <;> rfl

@[simp] theorem writeMessage_hist (n : Bandle) (m : BandleMessage) :
    (writeMessage n m).hist = n.hist := by
  unfold writeMessage
  split <;> rfl

theorem writeMessage_other (n : Bandle) (m : BandleMessage) {k : Nat}
    (other : k ≠ slotOf m.body.seq) :
    (writeMessage n m).log k = n.log k ∧ (writeMessage n m).logPayloads k = n.logPayloads k := by
  unfold writeMessage
  split
  · simp only [setSlot, Function.update_of_ne other, and_self]
  · exact ⟨rfl, rfl⟩

theorem writeMessage_self {n : Bandle} {m : BandleMessage} (touched : touches n.cfg m = true) :
    (writeMessage n m).log (slotOf m.body.seq) =
        (messageEntry n.cfg.quorum m (n.claimEntry m.body.seq)
          (n.logPayloads (slotOf m.body.seq))).1 ∧
      (writeMessage n m).logPayloads (slotOf m.body.seq) =
        (messageEntry n.cfg.quorum m (n.claimEntry m.body.seq)
          (n.logPayloads (slotOf m.body.seq))).2 := by
  unfold writeMessage
  simp only [touched, if_true, setSlot, Function.update_self, and_self]

theorem writeMessage_untouched {n : Bandle} {m : BandleMessage} (untouched : touches n.cfg m = false) :
    writeMessage n m = n := by
  simp [writeMessage, untouched]

/-! ### The handlers of the source -/

theorem recordProposal_write (n : Bandle) {m : BandleMessage} (type : m.type = .proposal) :
    n.recordProposal m = { writeMessage n m with hist := (n.recordProposal m).hist } := by
  simp [writeMessage, setSlot, touches, messageEntry, recordProposal, type]

theorem handleDecide_write (n : Bandle) {m : BandleMessage} (type : m.type = .decide) :
    n.handleDecideLocked hash tsc m = (writeMessage n m).advanceExecuteLocked hash tsc := by
  simp [writeMessage, setSlot, touches, messageEntry, handleDecideLocked, type]

/-- The second claim of the slot finds the entry the vote was stored in. -/
theorem claimEntry_update (n : Bandle) {seq : Nat} {e : LogEntry} (same : e.seq = seq) :
    claimEntry { n with log := Function.update n.log (slotOf seq) e } seq = e := by
  simp [claimEntry, same]

theorem handleP1_write (n : Bandle) {m : BandleMessage} (type : m.type = .p1) :
    n.handleP1Locked hash tsc m =
      if touches n.cfg m = true ∧
          completesQuorum n.cfg.quorum m (n.claimEntry m.body.seq) = true then
        (writeMessage n m).advanceExecuteLocked hash tsc
      else writeMessage n m := by
  unfold handleP1Locked
  dsimp only
  by_cases refused : m.body.value ≠ 1 ∨ m.body.promise = 0 ∨ m.body.sender < 1 ∨
      m.body.sender > n.cfg.clusterSize
  · have untouched : touches n.cfg m = false := by
      simp only [touches, type, decide_eq_false_iff_not, not_not]
      exact refused
    rw [if_pos refused, writeMessage_untouched untouched, if_neg (by simp [untouched])]
  · have touched : touches n.cfg m = true := by
      simp only [touches, type, decide_eq_true_eq]
      exact refused
    have voteSeq : (voted m (n.claimEntry m.body.seq)).seq = m.body.seq := claimEntry_seq n _
    rw [if_neg refused]
    by_cases quorum : popcount (voted m (n.claimEntry m.body.seq)).p1Value1PromiseMask ≥
        n.cfg.quorum
    · have vote : popcount ((n.claimEntry m.body.seq).p1Value1PromiseMask |||
        (1 <<< (m.body.sender - 1))) ≥ n.cfg.quorum := quorum
      rw [if_pos vote, decideLocked]
      have claimed := claimEntry_update n voteSeq
      simp only [voted] at claimed
      rw [claimed]
      cases decided : (n.claimEntry m.body.seq).decided with
      | true =>
        have idle : completesQuorum n.cfg.quorum m (n.claimEntry m.body.seq) = false := by
          simp [completesQuorum, decided]
        simp [writeMessage, setSlot, touched, messageEntry, type, idle, voted, decided]
      | false =>
        have now : completesQuorum n.cfg.quorum m (n.claimEntry m.body.seq) = true := by
          simp [completesQuorum, decided, quorum]
        simp [writeMessage, setSlot, touched, messageEntry, type, now, voted]
    · have noVote : ¬ popcount ((n.claimEntry m.body.seq).p1Value1PromiseMask |||
        (1 <<< (m.body.sender - 1))) ≥ n.cfg.quorum := quorum
      have idle : completesQuorum n.cfg.quorum m (n.claimEntry m.body.seq) = false := by
        simp [completesQuorum, quorum]
      rw [if_neg noVote, if_neg (by simp [idle])]
      simp [writeMessage, setSlot, touched, messageEntry, type, idle, voted]

/-! ### Nothing ready is left behind -/

/-- A vote that completes no quorum makes nothing executable. -/
theorem writeMessage_vote {n : Bandle} {m : BandleMessage} (type : m.type = .p1)
    (idle : ¬ (touches n.cfg m = true ∧
      completesQuorum n.cfg.quorum m (n.claimEntry m.body.seq) = true))
    (drained : ¬ n.Executable n.executeNext) :
    ¬ (writeMessage n m).Executable (writeMessage n m).executeNext := by
  rw [writeMessage_next]
  by_cases touched : touches n.cfg m = true
  · have none : completesQuorum n.cfg.quorum m (n.claimEntry m.body.seq) = false := by
      simpa [touched] using idle
    by_cases here : slotOf n.executeNext = slotOf m.body.seq
    · have entry := (writeMessage_self touched).1
      simp only [messageEntry, type, none, Bool.false_eq_true, if_false] at entry
      intro ready
      rw [Executable, here, entry] at ready
      obtain ⟨seq, decided, known⟩ := ready
      simp only [voted, claimEntry_seq] at seq decided known
      -- the vote is for the next number, so the slot held the same entry before
      rw [seq] at decided known here
      rw [claimEntry] at decided known
      split at decided
      · simp [resetLogEntry] at decided
      · next same =>
        rw [if_neg same] at known
        exact drained ⟨not_not.mp same, decided, known⟩
    · rw [executable_congr (writeMessage_other n m here).1]
      exact drained
  · rw [writeMessage_untouched (by simpa using touched)]
    exact drained

theorem drained_p1 {n : Bandle} {m : BandleMessage} (type : m.type = .p1)
    (drained : ¬ n.Executable n.executeNext) :
    ¬ (n.handleP1Locked hash tsc m).Executable (n.handleP1Locked hash tsc m).executeNext := by
  rw [handleP1_write n type]
  split
  · exact advance_drained _
  · next idle => exact writeMessage_vote type idle drained

/-- Inside a chunk: as long as `need_advance` is not set, nothing is ready. -/
theorem drained_handleInChunk {st : Bandle × Bool} (m : BandleMessage)
    (drained : st.2 = false → ¬ st.1.Executable st.1.executeNext) :
    (handleInChunk hash tsc st m).2 = false →
      ¬ (handleInChunk hash tsc st m).1.Executable (handleInChunk hash tsc st m).1.executeNext := by
  unfold handleInChunk
  split
  · intro flag
    cases flag
  · next type => exact fun flag => drained_p1 type (drained flag)
  · exact fun _ => advance_drained _
  · exact drained

theorem drained_handleChunk {n : Bandle} (msgs : List BandleMessage)
    (drained : ¬ n.Executable n.executeNext) :
    ¬ (n.handleChunk hash tsc msgs).Executable (n.handleChunk hash tsc msgs).executeNext := by
  have folded : ∀ (msgs : List BandleMessage) (st : Bandle × Bool),
      (st.2 = false → ¬ st.1.Executable st.1.executeNext) →
      (msgs.foldl (handleInChunk hash tsc) st).2 = false →
      ¬ (msgs.foldl (handleInChunk hash tsc) st).1.Executable
        (msgs.foldl (handleInChunk hash tsc) st).1.executeNext := by
    intro msgs
    induction msgs with
    | nil => exact fun st start => start
    | cons m rest ih => exact fun st start => ih _ (drained_handleInChunk m start)
  unfold handleChunk
  dsimp only
  split
  · exact advance_drained _
  · next flag => exact folded msgs (n, false) (fun _ => drained) (by simpa using flag)

/-! ### Handlers as a write and an execution -/

/-- Histories that agree on what was executed and on the notifications. -/
def SameExecuted (h h' : History) : Prop := h'.executed = h.executed ∧ h'.notified = h.notified

/-- Inside a chunk a message is written, and executed or not. -/
theorem inChunk_cases (hash : Bytes → Nat) (tsc : Nat → Nat) (st : Bandle × Bool)
    (m : BandleMessage) :
    (∃ hist, SameExecuted st.1.hist hist ∧
      (handleInChunk hash tsc st m).1 = { writeMessage st.1 m with hist := hist }) ∨
    (handleInChunk hash tsc st m).1 = (writeMessage st.1 m).advanceExecuteLocked hash tsc := by
  unfold handleInChunk
  split
  · next type =>
    simp only [handleProposalLocked, Bool.false_eq_true, if_false]
    exact Or.inl ⟨(st.1.recordProposal m).hist, ⟨rfl, rfl⟩, recordProposal_write st.1 type⟩
  · next type =>
    dsimp only
    rw [handleP1_write st.1 type]
    split
    · exact Or.inr rfl
    · exact Or.inl ⟨(writeMessage st.1 m).hist, by simp [SameExecuted], rfl⟩
  · next type => exact Or.inr (handleDecide_write st.1 type)
  · next type =>
    have untouched : touches st.1.cfg m = false := by simp [touches, type]
    rw [writeMessage_untouched untouched]
    exact Or.inl ⟨st.1.hist, ⟨rfl, rfl⟩, rfl⟩

/-- `handle_message` executes unless the write has made nothing ready. -/
theorem handleMessage_cases (hash : Bytes → Nat) (tsc : Nat → Nat) (n : Bandle)
    (m : BandleMessage) :
    (∃ hist, SameExecuted n.hist hist ∧ n.handleMessage hash tsc m =
      advanceExecuteLocked hash tsc { writeMessage n m with hist := hist }) ∨
    (n.handleMessage hash tsc m = writeMessage n m ∧
      (¬ n.Executable n.executeNext →
        ¬ (writeMessage n m).Executable (writeMessage n m).executeNext)) := by
  unfold handleMessage
  split
  · next type =>
    simp only [handleProposalLocked, if_true]
    exact Or.inl ⟨(n.recordProposal m).hist, ⟨rfl, rfl⟩, by rw [← recordProposal_write n type]⟩
  · next type =>
    rw [handleP1_write n type]
    split
    · exact Or.inl ⟨(writeMessage n m).hist, by simp [SameExecuted], rfl⟩
    · next idle => exact Or.inr ⟨rfl, writeMessage_vote type idle⟩
  · next type =>
    exact Or.inl ⟨(writeMessage n m).hist, by simp [SameExecuted], handleDecide_write n type⟩
  · next type =>
    have untouched : touches n.cfg m = false := by simp [touches, type]
    rw [writeMessage_untouched untouched]
    exact Or.inr ⟨rfl, id⟩

theorem drained_handleMessage {n : Bandle} (m : BandleMessage)
    (drained : ¬ n.Executable n.executeNext) :
    ¬ (n.handleMessage hash tsc m).Executable (n.handleMessage hash tsc m).executeNext := by
  rcases handleMessage_cases hash tsc n m with ⟨hist, -, eq⟩ | ⟨eq, idle⟩
  · rw [eq]
    exact advance_drained _
  · rw [eq]
    exact idle drained

/-- The rule for properties of a node: check the slot write of an admissible message,
the histories of the handlers, and one call of `advance_execute_locked`. -/
structure HandlerRule (hash : Bytes → Nat) (tsc : Nat → Nat) (Q : BandleMessage → Prop)
    (P : Bandle → Prop) : Prop where
  write : ∀ n m, Q m → P n → P (writeMessage n m)
  frame : ∀ n hist, SameExecuted n.hist hist → P n → P { n with hist := hist }
  advance : ∀ n, P n → P (n.advanceExecuteLocked hash tsc)

section
variable {Q : BandleMessage → Prop} {P : Bandle → Prop} (rule : HandlerRule hash tsc Q P)
include rule

theorem HandlerRule.inChunk {st : Bandle × Bool} {m : BandleMessage} (ok : Q m) (h : P st.1) :
    P (handleInChunk hash tsc st m).1 := by
  have written := rule.write st.1 m ok h
  rcases inChunk_cases hash tsc st m with ⟨hist, same, eq⟩ | eq
  · rw [eq]
    exact rule.frame _ hist (by simpa [SameExecuted] using same) written
  · rw [eq]
    exact rule.advance _ written

theorem HandlerRule.message {n : Bandle} {m : BandleMessage} (ok : Q m) (h : P n) :
    P (n.handleMessage hash tsc m) := by
  have written := rule.write n m ok h
  rcases handleMessage_cases hash tsc n m with ⟨hist, same, eq⟩ | ⟨eq, -⟩
  · rw [eq]
    exact rule.advance _ (rule.frame _ hist (by simpa [SameExecuted] using same) written)
  · rw [eq]
    exact written

theorem HandlerRule.messages {n : Bandle} {msgs : List BandleMessage} (ok : ∀ m ∈ msgs, Q m)
    (h : P n) : P (msgs.foldl (handleMessage hash tsc) n) := by
  induction msgs generalizing n with
  | nil => exact h
  | cons m rest ih =>
    exact ih (fun m' member => ok m' (by simp [member])) (rule.message (ok m (by simp)) h)

theorem HandlerRule.chunk {n : Bandle} {msgs : List BandleMessage} (ok : ∀ m ∈ msgs, Q m)
    (h : P n) : P (n.handleChunk hash tsc msgs) := by
  have folded : ∀ (msgs : List BandleMessage) (st : Bandle × Bool), (∀ m ∈ msgs, Q m) → P st.1 →
      P (msgs.foldl (handleInChunk hash tsc) st).1 := by
    intro msgs
    induction msgs with
    | nil => exact fun st _ start => start
    | cons m rest ih =>
      exact fun st ok start => ih _ (fun m' member => ok m' (by simp [member]))
        (rule.inChunk (ok m (by simp)) start)
  unfold handleChunk
  dsimp only
  split
  · exact rule.advance _ (folded msgs (n, false) ok h)
  · exact folded msgs (n, false) ok h

theorem HandlerRule.batch {n : Bandle} {msgs : List BandleMessage} (ok : ∀ m ∈ msgs, Q m)
    (h : P n) : P (n.handleMessagesBatch hash tsc msgs) := by
  fun_induction handleMessagesBatch hash tsc n msgs with
  | case1 n msgs empty => exact h
  | case2 n msgs some ih =>
    refine ih (fun m member => ok m (List.mem_of_mem_drop member)) ?_
    exact rule.chunk (fun m member => ok m (List.mem_of_mem_take member)) h

end

end BandleCxl.Invariant
