import BandleCxl.Invariant.Replica

/-!
One lemma per kind of critical section, saying what it leaves alone. Delivery
(any handler, then execution) only moves `execute_next_` forward on the proposing
side; numbering (a client chunk or a no-op) only extends the node's own proposals.
-/
namespace BandleCxl.Invariant
open Library Source Bandle

/-- The proposing side of a node is untouched and `execute_next_` has not gone back. -/
structure ProposingSame (n n' : Bandle) : Prop where
  cfg : n'.cfg = n.cfg
  running : n'.running = n.running
  inputDone : n'.inputDone = n.inputDone
  nextSeq : n'.nextSeq = n.nextSeq
  highest : n'.highestProposedSeq = n.highestProposedSeq
  numbered : n'.hist.numbered = n.hist.numbered
  next_le : n.executeNext ≤ n'.executeNext

variable {hash : Bytes → Nat} {tsc : Nat → Nat}

theorem ProposingSame.refl (n : Bandle) : ProposingSame n n :=
  ⟨rfl, rfl, rfl, rfl, rfl, rfl, Nat.le_refl _⟩

theorem ProposingSame.trans {a b c : Bandle} (first : ProposingSame a b)
    (second : ProposingSame b c) : ProposingSame a c :=
  ⟨second.cfg.trans first.cfg, second.running.trans first.running,
    second.inputDone.trans first.inputDone, second.nextSeq.trans first.nextSeq,
    second.highest.trans first.highest, second.numbered.trans first.numbered,
    Nat.le_trans first.next_le second.next_le⟩

theorem ProposingSame.advance (n : Bandle) :
    ProposingSame n (n.advanceExecuteLocked hash tsc) := by
  refine advance_invariant (P := ProposingSame n) n ?_ ?_ (.refl n)
  · intro m k same
    exact ⟨same.cfg, same.running, same.inputDone, same.nextSeq, same.highest, same.numbered,
      same.next_le⟩
  · intro m flag same ready
    exact ⟨same.cfg, same.running, same.inputDone, same.nextSeq, same.highest, same.numbered,
      Nat.le_succ_of_le same.next_le⟩

theorem ProposingSame.record (n : Bandle) (m : BandleMessage) :
    ProposingSame n (n.recordProposal m) :=
  ⟨rfl, rfl, rfl, rfl, rfl, rfl, Nat.le_refl _⟩

/-- Writing one log slot. -/
theorem ProposingSame.setLog (n : Bandle) (log : Nat → LogEntry) :
    ProposingSame n { n with log := log } :=
  ⟨rfl, rfl, rfl, rfl, rfl, rfl, Nat.le_refl _⟩

theorem ProposingSame.proposal (n : Bandle) (m : BandleMessage) (advance : Bool) :
    ProposingSame n (n.handleProposalLocked hash tsc m advance) := by
  unfold handleProposalLocked
  split
  · exact (ProposingSame.record n m).trans (.advance _)
  · exact .record n m

theorem ProposingSame.decide (n : Bandle) (seq value : Nat) :
    ProposingSame n (n.decideLocked hash tsc seq value) := by
  unfold decideLocked
  dsimp only
  split
  · exact .setLog n _
  · exact (ProposingSame.setLog n _).trans (.advance _)

theorem ProposingSame.inChunk (st : Bandle × Bool) (m : BandleMessage) :
    ProposingSame st.1 (handleInChunk hash tsc st m).1 := by
  unfold handleInChunk
  split
  · exact ProposingSame.record st.1 m
  · unfold handleP1Locked
    dsimp only
    split
    · exact .refl _
    · split
      · exact (ProposingSame.setLog st.1 _).trans (.decide _ _ _)
      · exact .setLog st.1 _
  · unfold handleDecideLocked
    exact (ProposingSame.setLog st.1 _).trans (.advance _)
  · exact .refl _

theorem ProposingSame.chunk (n : Bandle) (msgs : List BandleMessage) :
    ProposingSame n (n.handleChunk hash tsc msgs) := by
  have folded : ∀ (msgs : List BandleMessage) (st : Bandle × Bool),
      ProposingSame st.1 (msgs.foldl (handleInChunk hash tsc) st).1 := by
    intro msgs
    induction msgs with
    | nil => exact fun st => .refl _
    | cons m rest ih => exact fun st => (ProposingSame.inChunk st m).trans (ih _)
  unfold handleChunk
  dsimp only
  split
  · exact (folded msgs (n, false)).trans (.advance _)
  · exact folded msgs (n, false)

theorem ProposingSame.message (n : Bandle) (m : BandleMessage) :
    ProposingSame n (n.handleMessage hash tsc m) := by
  have inChunk : ProposingSame n (handleInChunk hash tsc (n, false) m).1 := .inChunk (n, false) m
  unfold handleMessage
  cases type : m.type with
  | proposal => exact .proposal n m true
  | p1 => simpa [handleInChunk, type] using inChunk
  | decide => simpa [handleInChunk, type] using inChunk
  | p2 => exact .refl n

theorem ProposingSame.recordAll (n : Bandle) (msgs : List BandleMessage) :
    ProposingSame n (Invariant.recordAll n msgs) := by
  induction msgs generalizing n with
  | nil => exact .refl n
  | cons m rest ih => exact (ProposingSame.record n m).trans (ih _)

/-- Self-delivery records the chunk proposal by proposal. -/
theorem foldl_handleProposal (n : Bandle) (msgs : List BandleMessage) :
    msgs.foldl (fun n p => n.handleProposalLocked hash tsc p false) n = recordAll n msgs := rfl

/-- A chunk of proposals is recorded and then executed. -/
theorem handleChunk_proposals (n : Bandle) (msgs : List BandleMessage)
    (proposals : ∀ m ∈ msgs, m.type = .proposal) (nonempty : msgs ≠ []) :
    n.handleChunk hash tsc msgs = (recordAll n msgs).advanceExecuteLocked hash tsc := by
  have folded : ∀ (msgs : List BandleMessage) (st : Bandle × Bool),
      (∀ m ∈ msgs, m.type = .proposal) → msgs.foldl (handleInChunk hash tsc) st =
        (recordAll st.1 msgs, st.2 || !msgs.isEmpty) := by
    intro msgs
    induction msgs with
    | nil => intro st _; simp [recordAll]
    | cons m rest ih =>
      intro st proposals
      have first : handleInChunk hash tsc st m = (st.1.recordProposal m, true) := by
        simp [handleInChunk, proposals m (by simp), handleProposalLocked]
      rw [List.foldl_cons, first, ih _ fun m' member => proposals m' (by simp [member])]
      simp [recordAll]
  unfold handleChunk
  rw [folded msgs (n, false) proposals]
  cases msgs with
  | nil => exact absurd rfl nonempty
  | cons m rest => simp

/-! ### Numbering -/

/-- `n'` has numbered `msgs` on top of what `n` had numbered. -/
structure Numbers (n n' : Bandle) (msgs : List BandleMessage) : Prop where
  cfg : n'.cfg = n.cfg
  running : n'.running = n.running
  inputDone : n'.inputDone = n.inputDone
  log : n'.log = n.log
  payloads : n'.logPayloads = n.logPayloads
  next : n'.executeNext = n.executeNext
  kv : n'.kv = n.kv
  handled : n'.hist.handled = n.hist.handled
  executed : n'.hist.executed = n.hist.executed
  resetLive : n'.hist.resetLive = n.hist.resetLive
  completed : n'.acct.completed = n.acct.completed
  numbered : n'.hist.numbered = n.hist.numbered ++ msgs
  nextSeq : n'.nextSeq = n.nextSeq + 3 * msgs.length
  highest : n.nextSeq ≤ n.highestProposedSeq + 3 → n'.nextSeq ≤ n'.highestProposedSeq + 3
  proposed : n.highestProposedSeq < n.nextSeq → n'.highestProposedSeq < n'.nextSeq
  seqs : ∀ k m, msgs[k]? = some m → m.body.seq = n.nextSeq + 3 * k

theorem Numbers.nil (n : Bandle) : Numbers n n [] where
  cfg := rfl
  running := rfl
  inputDone := rfl
  log := rfl
  payloads := rfl
  next := rfl
  kv := rfl
  handled := rfl
  executed := rfl
  resetLive := rfl
  completed := rfl
  numbered := (List.append_nil _).symm
  nextSeq := rfl
  highest h := h
  proposed h := h
  seqs k m found := by simp at found

theorem Numbers.cons {a b c : Bandle} {m : BandleMessage} {rest : List BandleMessage}
    (first : Numbers a b [m]) (second : Numbers b c rest) : Numbers a c (m :: rest) where
  cfg := second.cfg.trans first.cfg
  running := second.running.trans first.running
  inputDone := second.inputDone.trans first.inputDone
  log := second.log.trans first.log
  payloads := second.payloads.trans first.payloads
  next := second.next.trans first.next
  kv := second.kv.trans first.kv
  handled := second.handled.trans first.handled
  executed := second.executed.trans first.executed
  resetLive := second.resetLive.trans first.resetLive
  completed := second.completed.trans first.completed
  numbered := by rw [second.numbered, first.numbered, List.append_assoc]; rfl
  nextSeq := by
    rw [second.nextSeq, first.nextSeq]
    simp only [List.length_cons, List.length_nil]
    omega
  highest h := second.highest (first.highest h)
  proposed h := second.proposed (first.proposed h)
  seqs k m' found := by
    cases k with
    | zero =>
      simp only [List.getElem?_cons_zero, Option.some.injEq] at found
      subst m'
      exact first.seqs 0 m rfl
    | succ k =>
      have later := second.seqs k m' (by simpa using found)
      rw [later, first.nextSeq]
      simp only [List.length_cons, List.length_nil]
      omega

theorem Numbers.proposal (n : Bandle) (p : BandleMessage) :
    Numbers n (numberProposal tsc n p).1 [(numberProposal tsc n p).2] where
  cfg := rfl
  running := rfl
  inputDone := rfl
  log := rfl
  payloads := rfl
  next := rfl
  kv := rfl
  handled := rfl
  executed := rfl
  resetLive := rfl
  completed := rfl
  numbered := rfl
  nextSeq := by simp [numberProposal, n.cfg.three]
  highest _ := by simp [numberProposal, n.cfg.three]
  proposed h := by
    simp only [numberProposal, n.cfg.three]
    omega
  seqs k m found := by
    cases k with
    | zero =>
      simp only [List.getElem?_cons_zero, Option.some.injEq] at found
      subst m
      simp [numberProposal]
    | succ k => simp at found

theorem Numbers.chunk (n : Bandle) (chunk : List BandleMessage) :
    Numbers n (numberChunk tsc n chunk).1 (numberChunk tsc n chunk).2 := by
  induction chunk generalizing n with
  | nil => exact .nil n
  | cons p rest ih => exact (Numbers.proposal n p).cons (ih _)

theorem Numbers.noop (n : Bandle) (now : Nat) : Numbers n (n.numberNoop now n.noopProposal)
    [n.noopProposal] where
  cfg := rfl
  running := rfl
  inputDone := rfl
  log := rfl
  payloads := rfl
  next := rfl
  kv := rfl
  handled := rfl
  executed := rfl
  resetLive := rfl
  completed := rfl
  numbered := rfl
  nextSeq := by simp [numberNoop, n.cfg.three]
  highest _ := by simp [numberNoop, n.cfg.three]
  proposed h := by
    simp only [numberNoop, n.cfg.three]
    omega
  seqs k m found := by
    cases k with
    | zero =>
      simp only [List.getElem?_cons_zero, Option.some.injEq] at found
      subst m
      simp [noopProposal]
    | succ k => simp at found

theorem numberChunk_length (n : Bandle) (chunk : List BandleMessage) :
    (numberChunk tsc n chunk).2.length = chunk.length := by
  induction chunk generalizing n with
  | nil => rfl
  | cons p rest ih => simp [numberChunk, ih]

/-- Numbering sets the number, the id and the start time; the request stays. -/
theorem WellFormed.numberChunk {proposer : Nat} (n : Bandle) {chunk : List BandleMessage}
    (wf : ∀ m ∈ chunk, WellFormed proposer m) :
    ∀ m ∈ (Bandle.numberChunk tsc n chunk).2, WellFormed proposer m := by
  induction chunk generalizing n with
  | nil => intro m member; simp [Bandle.numberChunk] at member
  | cons p rest ih =>
    intro m member
    simp only [Bandle.numberChunk, List.mem_cons] at member
    rcases member with first | later
    · have old := wf p (by simp)
      subst m
      exact ⟨old.type, old.proposer, old.fits, old.bare⟩
    · exact ih _ (fun m' member' => wf m' (by simp [member'])) m later

theorem WellFormed.noop (n : Bandle) : WellFormed n.cfg.nodeId n.noopProposal where
  type := rfl
  proposer := rfl
  fits := Nat.zero_le _
  bare _ := ⟨rfl, rfl⟩

/-! ### Proposal construction -/

theorem WellFormed.build (nodeId : Nat) (old : Mem) {r : BorrowedRequest}
    (valid : validOp r.op = true) : WellFormed nodeId (buildProposal nodeId old r) where
  type := rfl
  proposer := rfl
  fits := by
    simp only [buildProposal]
    split <;> omega
  bare bare := by
    have isRead : r.op = opG := by
      rcases bare with read | noop
      · exact read
      · have : r.op = opN := noop
        rw [this] at valid
        exact absurd valid (by decide)
    simp [buildProposal, isRead]

/-- The proposals a request array gives rise to, in order. -/
def proposalsOf (nodeId : Nat) (bufs : Nat → Mem) : Nat → List BorrowedRequest →
    List BandleMessage
  | _, [] => []
  | k, r :: rest =>
    if validOp r.op then buildProposal nodeId (bufs k) r :: proposalsOf nodeId bufs (k + 1) rest
    else proposalsOf nodeId bufs k rest

/-- Requests refused by the operation check. -/
def invalidCount (reqs : List BorrowedRequest) : Nat := reqs.countP fun r => !validOp r.op

theorem buildProposals_eq (bufs : Nat → Mem) (reqs : List BorrowedRequest)
    (st : Bandle × List BandleMessage) :
    buildProposals bufs reqs st =
      ({ st.1 with acct := { st.1.acct with
          errorOps := st.1.acct.errorOps + invalidCount reqs
          totalOps := st.1.acct.totalOps + invalidCount reqs } },
        st.2 ++ proposalsOf st.1.cfg.nodeId bufs st.2.length reqs) := by
  induction reqs generalizing st with
  | nil => simp [buildProposals, invalidCount, proposalsOf]
  | cons r rest ih =>
    by_cases valid : validOp r.op = true
    · simp [buildProposals, valid, ih, invalidCount, proposalsOf]
    · have refused : validOp r.op = false := by simpa using valid
      simp [buildProposals, refused, ih, invalidCount, proposalsOf, Nat.add_assoc, Nat.add_comm 1]

theorem WellFormed.proposalsOf (nodeId : Nat) (bufs : Nat → Mem) (k : Nat)
    (reqs : List BorrowedRequest) :
    ∀ m ∈ Invariant.proposalsOf nodeId bufs k reqs, WellFormed nodeId m := by
  induction reqs generalizing k with
  | nil => intro m member; simp [Invariant.proposalsOf] at member
  | cons r rest ih =>
    intro m member
    simp only [Invariant.proposalsOf] at member
    split at member
    · next valid =>
      rcases List.mem_cons.mp member with first | later
      · subst m
        exact .build nodeId _ valid
      · exact ih _ m later
    · exact ih _ m member

end BandleCxl.Invariant
