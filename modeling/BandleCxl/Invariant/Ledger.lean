import BandleCxl.Invariant.Node

/-!
Accounting of one node's own requests. The client requests a node has numbered,
in order, are the first part of its numbered proposals (no-ops start after the
input is done). The completed ones are a prefix of that list: its length is
`done`. The slot of a request in `pending_` belongs to it as long as fewer than
`kCompletionSlots` requests were numbered after it, and every request that old is
done as long as no more than `kCompletionSlots` are open.
-/
namespace BandleCxl.Invariant
open Library Source Bandle

/-- The tagged request id of the `k`-th request of a node. -/
def requestId (nodeId k : Nat) : Nat := (nodeId <<< 56) ||| k

/-- Statistics after exactly the requests `settled` were completed, in order. -/
structure Tally (a : Accounting) (settled : List BandleMessage) : Prop where
  ok : a.okOps = settled.length
  reads : a.readOps = settled.countP fun m => m.body.op == opG
  writes : a.writeOps = settled.countP fun m => m.body.op != opG
  total : a.totalOps = a.okOps + a.errorOps
  readSamples : a.readLatency.samples = a.readOps ∧ a.readLatency.total = a.readOps
  writeSamples : a.writeLatency.samples = a.writeOps ∧ a.writeLatency.total = a.writeOps
  completed : a.completed = settled.map fun m => m.body.seq

structure Ledger (n : Bandle) (clients noops : List BandleMessage) (done : Nat) : Prop where
  numbered : n.hist.numbered = clients ++ noops
  quiet : noops ≠ [] → n.inputDone = true
  bare : ∀ m ∈ noops, m.body.clientReqId = 0
  next : n.nextSeq = n.cfg.nodeId + 3 * n.hist.numbered.length
  seqs : ∀ k m, clients[k]? = some m → m.body.seq = n.cfg.nodeId + 3 * k
  ids : ∀ k m, clients[k]? = some m → m.body.clientReqId = requestId n.cfg.nodeId (k + 1)
  nextId : n.acct.nextClientReqId = clients.length + 1
  progress : ∀ k < clients.length, n.cfg.nodeId + 3 * k < n.executeNext ↔ k < done
  done_le : done ≤ clients.length
  slots : ∀ k m, clients[k]? = some m → clients.length ≤ k + kCompletionSlots →
    n.acct.pending (slotOf (k + 1)) =
      { id := m.body.clientReqId, op := m.body.op, startTsc := m.body.startTsc,
        done := decide (k < done) }
  untouched : ∀ q, (∀ k < clients.length, slotOf (k + 1) ≠ q) → n.acct.pending q = {}
  pendingCount : n.acct.pendingCount + done = clients.length
  room : n.acct.pendingCount ≤ kCompletionSlots
  tally : Tally n.acct (clients.take done)
  clean : n.acct.overwritten = []

variable {hash : Bytes → Nat} {tsc : Nat → Nat} {preload : KVStore} {n n' : Bandle}
  {clients noops : List BandleMessage} {done : Nat}

theorem requestId_slot (nodeId k : Nat) :
    slotOf (requestId nodeId k &&& (2 ^ 56 - 1)) = slotOf k := by
  have mask : kCompletionSlots - 1 = 2 ^ 16 - 1 := rfl
  unfold slotOf requestId
  rw [mask]
  apply Nat.eq_of_testBit_eq
  intro b
  simp only [Nat.testBit_and, Nat.testBit_or, Nat.testBit_shiftLeft, Nat.testBit_two_pow_sub_one]
  by_cases low : b < 16
  · have below : ¬ 56 ≤ b := by omega
    have inside : b < 56 := by omega
    simp [low, below, inside]
  · simp [low]

theorem requestId_ne_zero (nodeId k : Nat) : requestId nodeId (k + 1) ≠ 0 := by
  unfold requestId
  intro zero
  have := (Nat.or_eq_zero_iff.mp zero).2
  omega

theorem Ledger.started (cfg : Settings) (now : Nat) :
    Ledger (Bandle.started cfg preload now) [] [] 0 where
  numbered := rfl
  quiet some := absurd rfl some
  bare m member := by simp at member
  next := by simp [Bandle.started]
  seqs k m found := by simp at found
  ids k m found := by simp at found
  nextId := rfl
  progress k inside := by simp at inside
  done_le := Nat.le_refl 0
  slots k m found := by simp at found
  untouched _ _ := rfl
  pendingCount := rfl
  room := Nat.zero_le _
  tally :=
    { ok := rfl
      reads := rfl
      writes := rfl
      total := rfl
      readSamples := ⟨AtomicHistogram.samples_default, rfl⟩
      writeSamples := ⟨AtomicHistogram.samples_default, rfl⟩
      completed := rfl }
  clean := rfl

/-- The ledger reads these members only. -/
theorem Ledger.frame (h : Ledger n clients noops done) (cfg : n'.cfg = n.cfg)
    (numbered : n'.hist.numbered = n.hist.numbered)
    (input : n.inputDone = true → n'.inputDone = true) (nextSeq : n'.nextSeq = n.nextSeq)
    (next : n'.executeNext = n.executeNext) (acct : n'.acct = n.acct) :
    Ledger n' clients noops done where
  numbered := numbered.trans h.numbered
  quiet some := input (h.quiet some)
  bare := h.bare
  next := by rw [nextSeq, numbered, cfg]; exact h.next
  seqs := by rw [cfg]; exact h.seqs
  ids := by rw [cfg]; exact h.ids
  nextId := by rw [acct]; exact h.nextId
  progress := by rw [cfg, next]; exact h.progress
  done_le := h.done_le
  slots := by rw [acct]; exact h.slots
  untouched := by rw [acct]; exact h.untouched
  pendingCount := by rw [acct]; exact h.pendingCount
  room := by rw [acct]; exact h.room
  tally := by rw [acct]; exact h.tally
  clean := by rw [acct]; exact h.clean

theorem Ledger.recordAll (h : Ledger n clients noops done) (msgs : List BandleMessage) :
    Ledger (Invariant.recordAll n msgs) clients noops done := by
  induction msgs generalizing n with
  | nil => exact h
  | cons m rest ih => exact ih (h.frame rfl rfl id rfl rfl rfl)

/-! ### Refused requests -/

theorem Ledger.refused (h : Ledger n clients noops done) (count : Nat) :
    Ledger { n with acct := { n.acct with
      errorOps := n.acct.errorOps + count, totalOps := n.acct.totalOps + count } }
      clients noops done :=
  { h with
    tally := { h.tally with
      total := by
        have := h.tally.total
        simp only
        omega } }

/-! ### Numbering -/

/-- A position of an extended list is an old one or the new last one. -/
theorem getElem?_append_singleton {α : Type*} {l : List α} {last a : α} {k : Nat}
    (found : (l ++ [last])[k]? = some a) :
    (k < l.length ∧ l[k]? = some a) ∨ (k = l.length ∧ a = last) := by
  rw [List.getElem?_append] at found
  split at found
  · next inside => exact Or.inl ⟨inside, found⟩
  · next outside =>
    have zero : k - l.length = 0 := by
      by_contra later
      rw [List.getElem?_eq_none (by simp; omega)] at found
      cases found
    rw [zero] at found
    exact Or.inr ⟨by omega, (Option.some.inj found).symm⟩

/-- The slot a new request takes is untouched or belongs to a request that is done. -/
theorem Ledger.slot_free (h : Ledger n clients [] done)
    (room : n.acct.pendingCount < kCompletionSlots) :
    (n.acct.pending (slotOf (clients.length + 1))).id = 0 ∨
      (n.acct.pending (slotOf (clients.length + 1))).done = true := by
  have lap : kCompletionSlots = 65536 := rfl
  have count := h.pendingCount
  by_cases wrapped : kCompletionSlots ≤ clients.length
  · obtain ⟨k, index⟩ : ∃ k, k + kCompletionSlots = clients.length :=
      ⟨clients.length - kCompletionSlots, by omega⟩
    have inside : k < clients.length := by omega
    have found := List.getElem?_eq_getElem inside
    have slot : slotOf (k + 1) = slotOf (clients.length + 1) := by
      rw [slotOf_eq, slotOf_eq]
      omega
    have entry := h.slots k _ found (by omega)
    rw [slot] at entry
    have old : k < done := by omega
    right
    rw [entry]
    simpa using old
  · left
    rw [h.untouched (slotOf (clients.length + 1))]
    intro k inside
    exact slotOf_ne (by omega) (by omega)

/-- So numbering a request takes no slot from an open one. -/
theorem Ledger.nothing_overwritten (h : Ledger n clients [] done) (tsc : Nat → Nat)
    (p : BandleMessage) (room : n.acct.pendingCount < kCompletionSlots) :
    (Bandle.numberProposal tsc n p).1.acct.overwritten = [] := by
  have free := h.slot_free room
  rw [← h.nextId] at free
  have kept : ¬ ((n.acct.pending (slotOf n.acct.nextClientReqId)).id ≠ 0 ∧
      (n.acct.pending (slotOf n.acct.nextClientReqId)).done = false) := by
    rintro ⟨used, open_⟩
    rcases free with zero | finished
    · exact used zero
    · rw [open_] at finished
      cases finished
  have appended : (Bandle.numberProposal tsc n p).1.acct.overwritten = n.acct.overwritten ++ [] :=
    congrArg (n.acct.overwritten ++ ·) (if_neg kept)
  rw [appended, List.append_nil]
  exact h.clean

theorem Ledger.numberProposal (h : Ledger n clients [] done) (tsc : Nat → Nat) (p : BandleMessage)
    (room : n.acct.pendingCount < kCompletionSlots) (ahead : n.executeNext ≤ n.nextSeq) :
    Ledger (Bandle.numberProposal tsc n p).1 (clients ++ [(Bandle.numberProposal tsc n p).2]) []
      done := by
  have lap : kCompletionSlots = 65536 := rfl
  have next := h.next
  rw [h.numbered, List.append_nil] at next
  have nextId := h.nextId
  have done_le := h.done_le
  have seq : (Bandle.numberProposal tsc n p).2.body.seq = n.nextSeq := rfl
  have id : (Bandle.numberProposal tsc n p).2.body.clientReqId =
    requestId n.cfg.nodeId (clients.length + 1) := by
    rw [← nextId]
    rfl
  have pending : (Bandle.numberProposal tsc n p).1.acct.pending =
      Function.update n.acct.pending (slotOf (clients.length + 1))
        { id := requestId n.cfg.nodeId (clients.length + 1), op := p.body.op,
          startTsc := tsc n.nextSeq, done := false } := by
    rw [← nextId]
    rfl
  constructor
  · rw [List.append_nil]
    exact congrArg (· ++ _) (h.numbered.trans (List.append_nil _))
  · intro some
    exact absurd rfl some
  · intro m member
    simp at member
  · have grown : (Bandle.numberProposal tsc n p).1.nextSeq = n.nextSeq + 3 := by
      simp [Bandle.numberProposal, n.cfg.three]
    have length : (Bandle.numberProposal tsc n p).1.hist.numbered.length =
        clients.length + 1 := by
      simp [Bandle.numberProposal, h.numbered]
    have cfg : (Bandle.numberProposal tsc n p).1.cfg = n.cfg := rfl
    rw [grown, length, cfg]
    omega
  · intro k m found
    rcases getElem?_append_singleton found with ⟨-, old⟩ | ⟨last, new⟩
    · exact h.seqs k m old
    · rw [new, seq, last]
      exact next
  · intro k m found
    rcases getElem?_append_singleton found with ⟨-, old⟩ | ⟨last, new⟩
    · exact h.ids k m old
    · rw [new, id, last]
      rfl
  · have grown : (Bandle.numberProposal tsc n p).1.acct.nextClientReqId =
      n.acct.nextClientReqId + 1 := rfl
    rw [grown, nextId]
    simp
  · intro k inside
    rw [List.length_append, List.length_singleton] at inside
    have cfg : (Bandle.numberProposal tsc n p).1.cfg = n.cfg := rfl
    have same : (Bandle.numberProposal tsc n p).1.executeNext = n.executeNext := rfl
    rw [cfg, same]
    by_cases old : k < clients.length
    · exact h.progress k old
    · constructor <;> intro <;> omega
  · rw [List.length_append]
    omega
  · intro k m found recent
    rw [List.length_append, List.length_singleton] at recent
    rw [pending]
    rcases getElem?_append_singleton found with ⟨inside, old⟩ | ⟨last, new⟩
    · have apart : slotOf (k + 1) ≠ slotOf (clients.length + 1) :=
        slotOf_ne (by omega) (by omega)
      rw [Function.update_of_ne apart]
      exact h.slots k m old (by omega)
    · have open_ : decide (clients.length < done) = false := by simp; omega
      rw [last, Function.update_self, new, id, open_]
      rfl
  · intro q outside
    rw [List.length_append, List.length_singleton] at outside
    rw [pending, Function.update_of_ne (outside clients.length (by omega)).symm]
    exact h.untouched q fun k inside => outside k (by omega)
  · have grown : (Bandle.numberProposal tsc n p).1.acct.pendingCount =
      n.acct.pendingCount + 1 := rfl
    have count := h.pendingCount
    rw [grown, List.length_append, List.length_singleton]
    omega
  · exact room
  · rw [List.take_append_of_le_length done_le]
    exact ⟨h.tally.ok, h.tally.reads, h.tally.writes, h.tally.total, h.tally.readSamples,
      h.tally.writeSamples, h.tally.completed⟩
  · exact h.nothing_overwritten tsc p room

theorem Ledger.numberChunk (h : Ledger n clients [] done) (chunk : List BandleMessage)
    (room : n.acct.pendingCount + chunk.length ≤ kCompletionSlots)
    (ahead : n.executeNext ≤ n.nextSeq) :
    Ledger (Bandle.numberChunk tsc n chunk).1 (clients ++ (Bandle.numberChunk tsc n chunk).2) []
      done := by
  induction chunk generalizing n clients with
  | nil =>
    simp only [Bandle.numberChunk, List.append_nil]
    exact h
  | cons p rest ih =>
    have grown : (Bandle.numberProposal tsc n p).1.nextSeq = n.nextSeq + 3 := by
      simp [Bandle.numberProposal, n.cfg.three]
    have same : (Bandle.numberProposal tsc n p).1.executeNext = n.executeNext := rfl
    have count : (Bandle.numberProposal tsc n p).1.acct.pendingCount =
      n.acct.pendingCount + 1 := rfl
    rw [List.length_cons] at room
    have first := h.numberProposal tsc p (by omega) ahead
    have later := ih first (by omega) (by omega)
    rw [List.append_assoc] at later
    exact later

/-- With every slot open, the next request takes the one of the oldest open request. -/
theorem Ledger.takes_open (h : Ledger n clients [] done) (tsc : Nat → Nat) (p : BandleMessage)
    (full : n.acct.pendingCount = kCompletionSlots) :
    (Bandle.numberProposal tsc n p).1.acct.overwritten ≠ [] := by
  have lap : kCompletionSlots = 65536 := rfl
  have count := h.pendingCount
  have inside : done < clients.length := by omega
  have oldest := List.getElem?_eq_getElem inside
  have entry := h.slots done _ oldest (by omega)
  have slot : slotOf (done + 1) = slotOf n.acct.nextClientReqId := by
    rw [h.nextId, slotOf_eq, slotOf_eq]
    omega
  rw [slot, h.ids done _ oldest] at entry
  have live : (n.acct.pending (slotOf n.acct.nextClientReqId)).id ≠ 0 ∧
      (n.acct.pending (slotOf n.acct.nextClientReqId)).done = false := by
    rw [entry]
    exact ⟨requestId_ne_zero _ _, decide_eq_false (Nat.lt_irrefl done)⟩
  have appended : (Bandle.numberProposal tsc n p).1.acct.overwritten = n.acct.overwritten ++
      [(n.acct.pending (slotOf n.acct.nextClientReqId)).id] :=
    congrArg (n.acct.overwritten ++ ·) (if_pos live)
  rw [appended]
  simp

theorem numberChunk_overwritten_mono (tsc : Nat → Nat) (n : Bandle) (chunk : List BandleMessage) :
    n.acct.overwritten <+: (Bandle.numberChunk tsc n chunk).1.acct.overwritten := by
  induction chunk generalizing n with
  | nil => exact List.prefix_rfl
  | cons p rest ih => exact (List.prefix_append _ _).trans (ih (Bandle.numberProposal tsc n p).1)

/-- The converse of `Ledger.numberChunk`: without room an open slot is taken. -/
theorem Ledger.crowded (h : Ledger n clients [] done) (tsc : Nat → Nat) (chunk : List BandleMessage)
    (crowded : kCompletionSlots < n.acct.pendingCount + chunk.length)
    (ahead : n.executeNext ≤ n.nextSeq) :
    (Bandle.numberChunk tsc n chunk).1.acct.overwritten ≠ [] := by
  induction chunk generalizing n clients with
  | nil => exact absurd h.room (Nat.not_le.mpr crowded)
  | cons p rest ih =>
    rw [List.length_cons] at crowded
    have room := h.room
    by_cases full : n.acct.pendingCount = kCompletionSlots
    · intro none
      have kept := numberChunk_overwritten_mono tsc (Bandle.numberProposal tsc n p).1 rest
      have all : (Bandle.numberChunk tsc (Bandle.numberProposal tsc n p).1 rest).1.acct.overwritten =
        [] := none
      rw [all, List.prefix_nil] at kept
      exact h.takes_open tsc p full kept
    · have count : (Bandle.numberProposal tsc n p).1.acct.pendingCount =
        n.acct.pendingCount + 1 := rfl
      have grown : (Bandle.numberProposal tsc n p).1.nextSeq = n.nextSeq + 3 := by
        simp [Bandle.numberProposal, n.cfg.three]
      have same : (Bandle.numberProposal tsc n p).1.executeNext = n.executeNext := rfl
      exact ih (h.numberProposal tsc p (by omega) ahead) (by omega) (by omega)

theorem Ledger.numberNoop (h : Ledger n clients noops done) (now : Nat)
    (input : n.inputDone = true) :
    Ledger (n.numberNoop now n.noopProposal) clients (noops ++ [n.noopProposal]) done :=
  { h with
    numbered := by
      rw [← List.append_assoc, ← h.numbered]
      rfl
    quiet := fun _ => input
    bare := by
      intro m member
      rcases List.mem_append.mp member with old | new
      · exact h.bare m old
      · rw [List.mem_singleton.mp new]
        rfl
    next := by
      have next := h.next
      simp only [Bandle.numberNoop, n.cfg.three, List.length_append, List.length_singleton]
      omega }

/-! ### Completion -/

/-- What completion relies on besides the ledger: the handled proposals with this
node's name are those it numbered. -/
structure Own (n : Bandle) : Prop where
  proposer : ∀ m ∈ n.hist.numbered, m.body.proposer = n.cfg.nodeId
  handled : ∀ m ∈ n.hist.handled, m.body.proposer = n.cfg.nodeId → m ∈ n.hist.numbered
  unique : ∀ m ∈ n.hist.handled, ∀ m' ∈ n.hist.numbered, m.body.seq = m'.body.seq → m = m'

/-- The accounting of an own entry whose `pending_` slot is still its own. -/
def settle (a : Accounting) (slot latency seq : Nat) (p : Pending) : Accounting :=
  { a with
    pending := Function.update a.pending slot { p with done := true }
    pendingCount := a.pendingCount - 1
    totalOps := a.totalOps + 1
    okOps := a.okOps + 1
    readOps := if p.op = opG then a.readOps + 1 else a.readOps
    writeOps := if p.op = opG then a.writeOps else a.writeOps + 1
    readLatency := if p.op = opG then a.readLatency.record latency else a.readLatency
    writeLatency := if p.op = opG then a.writeLatency else a.writeLatency.record latency
    completed := a.completed ++ [seq] }

theorem completePending_settle (endTsc : Nat) (e : LogEntry) (a : Accounting) (flag : Bool)
    (own : (a.pending (slotOf (e.clientReqId &&& (2 ^ 56 - 1)))).id = e.clientReqId)
    (open_ : (a.pending (slotOf (e.clientReqId &&& (2 ^ 56 - 1)))).done = false)
    (pos : 0 < a.pendingCount) :
    ∃ latency, (completePending endTsc e (a, flag)).1 =
      settle a (slotOf (e.clientReqId &&& (2 ^ 56 - 1))) latency e.seq
        (a.pending (slotOf (e.clientReqId &&& (2 ^ 56 - 1)))) := by
  refine ⟨if endTsc ≥ (a.pending (slotOf (e.clientReqId &&& (2 ^ 56 - 1)))).startTsc then
    endTsc - (a.pending (slotOf (e.clientReqId &&& (2 ^ 56 - 1)))).startTsc else 0, ?_⟩
  unfold completePending settle
  dsimp only
  rw [if_pos ⟨own, open_⟩]
  by_cases read : (a.pending (slotOf (e.clientReqId &&& (2 ^ 56 - 1)))).op = opG
  · simp only [if_pos read, if_pos pos, gt_iff_lt]
  · simp only [if_neg read, if_pos pos, gt_iff_lt]

theorem Tally.settle {a : Accounting} {settled : List BandleMessage} (h : Tally a settled)
    (slot latency : Nat) {p : Pending} {m : BandleMessage} (op : p.op = m.body.op) :
    Tally (Invariant.settle a slot latency m.body.seq p) (settled ++ [m]) := by
  have total := h.total
  by_cases read : m.body.op = opG
  · constructor
    all_goals simp only [Invariant.settle, op, read, if_true]
    · simp [h.ok]
    · simp [h.reads, read]
    · simp [h.writes, read]
    · omega
    · simp [h.readSamples.1, h.readSamples.2]
    · exact h.writeSamples
    · simp [h.completed]
  · constructor
    all_goals simp only [Invariant.settle, op, read, if_false]
    · simp [h.ok]
    · simp [h.reads, read]
    · simp [h.writes, read]
    · omega
    · exact h.readSamples
    · simp [h.writeSamples.1, h.writeSamples.2]
    · simp [h.completed]

/-- Completing the oldest open request. -/
theorem Ledger.settle (h : Ledger n clients noops done) {m : BandleMessage} (latency : Nat)
    (found : clients[done]? = some m)
    (now : m.body.seq = n.executeNext) {n' : Bandle} (cfg : n'.cfg = n.cfg)
    (numbered : n'.hist.numbered = n.hist.numbered) (input : n'.inputDone = n.inputDone)
    (nextSeq : n'.nextSeq = n.nextSeq) (next : n'.executeNext = n.executeNext + 1)
    (acct : n'.acct = Invariant.settle n.acct (slotOf (done + 1)) latency m.body.seq
      (n.acct.pending (slotOf (done + 1)))) :
    Ledger n' clients noops (done + 1) := by
  have lap : kCompletionSlots = 65536 := rfl
  have inside : done < clients.length := (List.getElem?_eq_some_iff.mp found).1
  have seq := h.seqs done m found
  have open_ := h.pendingCount
  have room := h.room
  have recent : clients.length ≤ done + kCompletionSlots := by omega
  have slot := h.slots done m found recent
  have pending : n'.acct.pending = Function.update n.acct.pending (slotOf (done + 1))
      { id := m.body.clientReqId, op := m.body.op, startTsc := m.body.startTsc, done := true } := by
    rw [acct]
    simp only [Invariant.settle, slot]
  constructor
  · rw [numbered]
    exact h.numbered
  · rw [input]
    exact h.quiet
  · exact h.bare
  · rw [nextSeq, numbered, cfg]
    exact h.next
  · rw [cfg]
    exact h.seqs
  · rw [cfg]
    exact h.ids
  · rw [acct]
    exact h.nextId
  · intro k below
    rw [cfg, next]
    have before := h.progress k below
    constructor
    · intro; omega
    · intro; omega
  · exact inside
  · intro k m' found' recent'
    rw [pending]
    by_cases here : k = done
    · subst k
      rw [found] at found'
      cases found'
      rw [Function.update_self]
      simp
    · have apart : slotOf (k + 1) ≠ slotOf (done + 1) := by
        have below := (List.getElem?_eq_some_iff.mp found').1
        rcases Nat.lt_or_gt_of_ne here with lt | gt
        · exact slotOf_ne (by omega) (by omega)
        · exact (slotOf_ne (by omega) (by omega)).symm
      rw [Function.update_of_ne apart, h.slots k m' found' recent']
      have still : decide (k < done + 1) = decide (k < done) := by
        rw [decide_eq_decide]
        omega
      rw [still]
  · intro q outside
    rw [pending, Function.update_of_ne (outside done inside).symm]
    exact h.untouched q outside
  · rw [acct]
    simp only [Invariant.settle]
    omega
  · rw [acct]
    simp only [Invariant.settle]
    omega
  · have taken : clients.take (done + 1) = clients.take done ++ [m] := by
      rw [List.take_add_one, found]
      rfl
    rw [taken, acct]
    exact h.tally.settle _ latency (by rw [slot])
  · rw [acct]
    exact h.clean

/-- One executed entry: an own request is the oldest open one and is completed;
anything else leaves the accounting as it is. -/
theorem Ledger.executeEntry (h : Ledger n clients noops done) (inv : ReplicaInv hash preload n)
    (own : Own n) (flag : Bool) (ready : n.Executable n.executeNext) :
    ∃ done', Ledger (Bandle.executeEntry hash tsc (n, flag)).1 clients noops done' := by
  have counted := inv.count
  obtain ⟨m, handled, slot, held⟩ := inv.slots (slotOf n.executeNext) (by rw [ready.1]; omega)
  have number : m.body.seq = n.executeNext := by rw [← held.1, ← slot, ready.1]
  obtain ⟨-, -, -, decision, client, record⟩ := held
  have proposer : (n.log (slotOf n.executeNext)).proposer = m.body.proposer := by
    have := congrArg Executed.proposer record
    rw [number] at this
    exact this
  rw [number] at decision client
  have acct : (Bandle.executeEntry hash tsc (n, flag)).1.acct =
    (completeOwn tsc n.cfg.nodeId n.executeNext (n.log (slotOf n.executeNext))
      (n.acct, flag)).1 := rfl
  by_cases mine : m.body.proposer = n.cfg.nodeId ∧ m.body.clientReqId ≠ 0
  · -- the entry is the request at position `done`
    have belongs : m ∈ clients := by
      have all := own.handled m handled mine.1
      rw [h.numbered, List.mem_append] at all
      rcases all with request | noop
      · exact request
      · exact absurd (h.bare m noop) mine.2
    obtain ⟨k, found⟩ := List.getElem?_of_mem belongs
    have inside := (List.getElem?_eq_some_iff.mp found).1
    have seq := h.seqs k m found
    have position : k = done := by
      have here := h.progress k inside
      by_contra other
      have older := h.progress done (by omega)
      omega
    subst k
    have id := h.ids done m found
    have count := h.pendingCount
    have room := h.room
    have entry := h.slots done m found (by omega)
    have local_ : slotOf ((n.log (slotOf n.executeNext)).clientReqId &&& (2 ^ 56 - 1)) =
        slotOf (done + 1) := by
      rw [client, id]
      exact requestId_slot _ _
    obtain ⟨latency, settled⟩ := completePending_settle (tsc n.executeNext)
      (n.log (slotOf n.executeNext)) n.acct flag (by rw [local_, entry, client])
      (by rw [local_, entry]; simp) (by omega)
    refine ⟨done + 1, h.settle latency found number rfl rfl rfl rfl rfl ?_⟩
    have complete : completeOwn tsc n.cfg.nodeId n.executeNext (n.log (slotOf n.executeNext))
        (n.acct, flag) = completePending (tsc n.executeNext) (n.log (slotOf n.executeNext))
          (n.acct, flag) := by
      unfold completeOwn
      exact if_pos ⟨decision, by rw [proposer]; exact mine.1, by rw [client]; exact mine.2⟩
    rw [acct, complete, settled, local_, ready.1, number]
  · have skipped : completeOwn tsc n.cfg.nodeId n.executeNext (n.log (slotOf n.executeNext))
        (n.acct, flag) = (n.acct, flag) := by
      unfold completeOwn
      refine if_neg fun all => mine ⟨?_, ?_⟩
      · rw [← proposer]
        exact all.2.1
      · rw [← client]
        exact all.2.2
    have same : (Bandle.executeEntry hash tsc (n, flag)).1.acct = n.acct := by rw [acct, skipped]
    have progress : ∀ k < clients.length, n.cfg.nodeId + 3 * k < n.executeNext + 1 ↔ k < done := by
      intro k inside
      have before := h.progress k inside
      have other : n.cfg.nodeId + 3 * k ≠ n.executeNext := by
        intro here
        have found := List.getElem?_eq_getElem inside
        have belongs : clients[k] ∈ n.hist.numbered := by
          rw [h.numbered]
          exact List.mem_append_left _ (List.getElem_mem inside)
        have equal := own.unique m handled _ belongs (by rw [number, h.seqs k _ found, here])
        refine mine ⟨by rw [equal]; exact own.proposer _ belongs, ?_⟩
        rw [equal, h.ids k _ found]
        exact requestId_ne_zero _ _
      omega
    exact ⟨done, { h with
      nextId := by rw [same]; exact h.nextId
      progress := progress
      slots := by rw [same]; exact h.slots
      untouched := by rw [same]; exact h.untouched
      pendingCount := by rw [same]; exact h.pendingCount
      room := by rw [same]; exact h.room
      tally := by rw [same]; exact h.tally
      clean := by rw [same]; exact h.clean }⟩

theorem Own.executeEntry (own : Own n) (flag : Bool) :
    Own (Bandle.executeEntry hash tsc (n, flag)).1 :=
  ⟨own.proposer, own.handled, own.unique⟩

/-- A whole call of `advance_execute_locked`. -/
theorem Ledger.advance (h : Ledger n clients noops done) (inv : ReplicaInv hash preload n)
    (own : Own n) :
    ∃ done', Ledger (n.advanceExecuteLocked hash tsc) clients noops done' := by
  have all : (∃ done', Ledger (n.advanceExecuteLocked hash tsc) clients noops done') ∧
      ReplicaInv hash preload (n.advanceExecuteLocked hash tsc) ∧
      Own (n.advanceExecuteLocked hash tsc) := advance_invariant
    (P := fun m => (∃ done', Ledger m clients noops done') ∧ ReplicaInv hash preload m ∧ Own m) n
    (by
      rintro m k ⟨⟨done', ledger⟩, inv, own⟩
      exact ⟨⟨done', ledger.frame rfl rfl id rfl rfl rfl⟩,
        inv.frame rfl rfl rfl rfl rfl rfl rfl rfl, ⟨own.proposer, own.handled, own.unique⟩⟩)
    (by
      rintro m flag ⟨⟨done', ledger⟩, inv, own⟩ ready
      exact ⟨ledger.executeEntry inv own flag ready, inv.executeEntry flag ready,
        own.executeEntry flag⟩)
    ⟨⟨done, h⟩, inv, own⟩
  exact all.1

end BandleCxl.Invariant
