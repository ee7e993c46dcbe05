import BandleCxl.Invariant.Handling
import BandleCxl.Source.Cluster

/-!
Decision stability. P1 quorums and DECIDE messages never change a decision that is
taken. A PROPOSAL is accepted on delivery whatever was decided before, as the comment
in `handle_proposal_locked` says, so it turns any decision into 1. Nothing else
changes the decision of an entry before it is executed, as long as all numbers are
within one lap of each other.
-/
namespace BandleCxl.Guarantees
open Library Source Bandle Invariant

/-- How messages reach a node: one by one or as a received batch. -/
inductive Delivery where
  | one (m : BandleMessage)
  | batch (msgs : List BandleMessage)

def Delivery.msgs : Delivery → List BandleMessage
  | .one m => [m]
  | .batch msgs => msgs

def deliver (hash : Bytes → Nat) (tsc : Nat → Nat) (n : Bandle) : Delivery → Bandle
  | .one m => n.handleMessage hash tsc m
  | .batch msgs => n.handleMessagesBatch hash tsc msgs

/-- The log holds number `s` with decision `v`. -/
def DecidedAs (n : Bandle) (s v : Nat) : Prop :=
  (n.log (slotOf s)).seq = s ∧ (n.log (slotOf s)).decided = true ∧ (n.log (slotOf s)).decision = v

/-- What was executed between two states of a node. -/
def executedSince (before after : Bandle) : List Executed :=
  after.hist.executed.drop before.hist.executed.length

variable {hash : Bytes → Nat} {tsc : Nat → Nat} {base : Bandle} {hi s : Nat} {D : Nat → Prop}

/-- Since `base` the node has executed the numbers in order, `s` under a decision in
`D`; if it has not executed `s`, the log holds it with a decision in `D`. -/
structure Settled (base : Bandle) (hi s : Nat) (D : Nat → Prop) (n : Bandle) : Prop where
  lap : hi ≤ n.executeNext + kCompletionSlots
  le : base.executeNext ≤ n.executeNext
  grown : base.hist.executed <+: n.hist.executed
  numbers : (executedSince base n).map Executed.seq =
    List.range' base.executeNext (n.executeNext - base.executeNext)
  live : n.executeNext ≤ s → ∃ v, D v ∧ DecidedAs n s v
  done : ∀ r ∈ executedSince base n, r.seq = s → D r.decision

/-- A message keeps the decision of its entry, unless it is a PROPOSAL. -/
theorem messageEntry_decision (quorum : Nat) (m : BandleMessage) {e : LogEntry} (payload : Mem)
    (decided : e.decided = true) :
    (messageEntry quorum m e payload).1.decision = e.decision ∨
      m.type = .proposal ∧ (messageEntry quorum m e payload).1.decision = 1 := by
  unfold messageEntry
  split
  · next type => exact Or.inr ⟨type, rfl⟩
  · have idle : completesQuorum quorum m e = false := by simp [completesQuorum, decided]
    left
    simp only [idle, Bool.false_eq_true, if_false, voted]
  · left
    simp only [decided, if_true]
  · exact Or.inl rfl

theorem DecidedAs.write {n : Bandle} {m : BandleMessage} {v : Nat} (h : DecidedAs n s v)
    (number : m.body.seq = s) :
    DecidedAs (writeMessage n m) s v ∨
      m.type = .proposal ∧ DecidedAs (writeMessage n m) s 1 := by
  subst s
  obtain ⟨seq, decided, decision⟩ := h
  cases touched : touches n.cfg m with
  | true =>
    have claimed : n.claimEntry m.body.seq = n.log (slotOf m.body.seq) := by
      simp [claimEntry, seq]
    have entry := (writeMessage_self touched).1
    rw [claimed] at entry
    have stays := messageEntry_decided n.cfg.quorum m (n.logPayloads (slotOf m.body.seq)) decided
    have number := messageEntry_seq n.cfg.quorum m (n.log (slotOf m.body.seq))
      (n.logPayloads (slotOf m.body.seq))
    rw [seq] at number
    unfold DecidedAs
    rw [entry]
    rcases messageEntry_decision n.cfg.quorum m
      (n.logPayloads (slotOf m.body.seq)) decided with same | ⟨type, one⟩
    · exact Or.inl ⟨number, stays, by rw [same, decision]⟩
    · exact Or.inr ⟨type, number, stays, one⟩
  | false =>
    rw [writeMessage_untouched touched]
    exact Or.inl ⟨seq, decided, decision⟩

theorem DecidedAs.of_slot {n n' : Bandle} {v : Nat} (h : DecidedAs n s v)
    (log : n'.log (slotOf s) = n.log (slotOf s)) : DecidedAs n' s v := by
  unfold DecidedAs
  rw [log]
  exact h

/-- Messages within the lap below `hi`; a PROPOSAL for `s` needs decision 1 to be
in `D`. -/
structure Allowed (hi s : Nat) (D : Nat → Prop) (m : BandleMessage) : Prop where
  recent : hi ≤ m.body.seq + kCompletionSlots
  inside : m.body.seq < hi
  proposal : m.type = .proposal → m.body.seq = s → D 1

theorem Settled.write {n : Bandle} {m : BandleMessage} (h : Settled base hi s D n)
    (number : hi ≤ s + kCompletionSlots ∧ s < hi) (allowed : Allowed hi s D m) :
    Settled base hi s D (writeMessage n m) := by
  have recent := allowed.recent
  have inside := allowed.inside
  refine ⟨by simpa using h.lap, by simpa using h.le, by simpa using h.grown,
    by simpa [executedSince] using h.numbers, ?_, by simpa [executedSince] using h.done⟩
  intro waiting
  rw [writeMessage_next] at waiting
  obtain ⟨v, member, decided⟩ := h.live waiting
  by_cases same : m.body.seq = s
  · rcases decided.write same with kept | ⟨type, accepted⟩
    · exact ⟨v, member, kept⟩
    · exact ⟨1, allowed.proposal type same, accepted⟩
  · have other : slotOf s ≠ slotOf m.body.seq := by
      rcases Nat.lt_or_gt_of_ne same with lt | gt
      · exact (slotOf_ne lt (by omega)).symm
      · exact slotOf_ne gt (by omega)
    exact ⟨v, member, decided.of_slot (writeMessage_other n m other).1⟩

theorem Settled.advance {n : Bandle} (h : Settled base hi s D n) (number : s < hi) :
    Settled base hi s D (n.advanceExecuteLocked hash tsc) := by
  have run := advance_readyRun hash tsc n
  have lap := h.lap
  have le := h.le
  have le' := run.le
  have grown := h.grown.length_le
  have since : executedSince base (n.advanceExecuteLocked hash tsc) = executedSince base n ++
      (List.range' n.executeNext
        ((n.advanceExecuteLocked hash tsc).executeNext - n.executeNext)).map n.executedAt := by
    rw [executedSince, run.executed, List.drop_append_of_le_length grown, executedSince]
  refine ⟨by omega, by omega, ?_, ?_, ?_, ?_⟩
  · rw [run.executed]
    exact h.grown.trans (List.prefix_append _ _)
  · have seqs : (Executed.seq ∘ n.executedAt) = id := rfl
    rw [since, List.map_append, h.numbers, List.map_map, seqs, List.map_id]
    have start : n.executeNext = base.executeNext + 1 * (n.executeNext - base.executeNext) := by
      omega
    have total : (n.advanceExecuteLocked hash tsc).executeNext - base.executeNext =
        (n.executeNext - base.executeNext) +
          ((n.advanceExecuteLocked hash tsc).executeNext - n.executeNext) := by omega
    rw [total, ← List.range'_append, ← start]
  · intro waiting
    obtain ⟨v, member, decided⟩ := h.live (by omega)
    refine ⟨v, member, decided.of_slot (run.kept (slotOf s) ?_)⟩
    intro q lo before
    exact slotOf_ne (by omega) (by omega)
  · intro r executed here
    rw [since, List.mem_append] at executed
    rcases executed with old | new
    · exact h.done r old here
    · obtain ⟨q, inRange, record⟩ := List.mem_map.mp new
      rw [List.mem_range'_1] at inRange
      -- the record was made from the entry of `s`
      have same : q = s := by
        rw [← here, ← record]
        rfl
      subst q
      obtain ⟨v, member, decided⟩ := h.live (by omega)
      rw [← record]
      have decision : (n.executedAt s).decision = v := decided.2.2
      rw [decision]
      exact member

theorem Settled.handlers (hash : Bytes → Nat) (tsc : Nat → Nat) (base : Bandle) {hi s : Nat}
    (D : Nat → Prop) (number : hi ≤ s + kCompletionSlots ∧ s < hi) :
    HandlerRule hash tsc (Allowed hi s D) (Settled base hi s D) where
  write _ _ allowed h := h.write number allowed
  frame n hist same h := by
    obtain ⟨executed, -⟩ := same
    refine ⟨h.lap, h.le, ?_, ?_, h.live, ?_⟩
    · simpa [executed] using h.grown
    · simpa [executedSince, executed] using h.numbers
    · simpa [executedSince, executed] using h.done
  advance _ h := h.advance number.2

theorem Settled.deliveries {n : Bandle} {ds : List Delivery} (h : Settled base hi s D n)
    (number : hi ≤ s + kCompletionSlots ∧ s < hi)
    (allowed : ∀ d ∈ ds, ∀ m ∈ d.msgs, Allowed hi s D m) :
    Settled base hi s D (ds.foldl (deliver hash tsc) n) := by
  have rule := Settled.handlers hash tsc base D number
  induction ds generalizing n with
  | nil => exact h
  | cons d rest ih =>
    refine ih ?_ fun d' member => allowed d' (by simp [member])
    have first := allowed d (by simp)
    cases d with
    | one m => exact rule.message (first m (by simp [Delivery.msgs])) h
    | batch msgs => exact rule.batch first h

theorem deliveries_next_le {ds : List Delivery} {n : Bandle} :
    n.executeNext ≤ (ds.foldl (deliver hash tsc) n).executeNext := by
  have rule : HandlerRule hash tsc (fun _ => True) (fun n' => n.executeNext ≤ n'.executeNext) :=
    ⟨fun _ _ _ le => by simpa using le, fun _ _ _ le => le,
      fun n' le => le.trans (advance_readyRun hash tsc n').le⟩
  have kept : ∀ (ds : List Delivery) (n' : Bandle), n.executeNext ≤ n'.executeNext →
      n.executeNext ≤ (ds.foldl (deliver hash tsc) n').executeNext := by
    intro ds
    induction ds with
    | nil => exact fun _ le => le
    | cons d rest ih =>
      intro n' le
      apply ih
      cases d with
      | one m => exact rule.message trivial le
      | batch msgs => exact rule.batch (fun _ _ => trivial) le
  exact kept ds n (Nat.le_refl _)

/-- Some PROPOSAL among the deliveries is for `s`. Deliveries are taken as wholes: the PROPOSAL
may be behind the message in whose handling `s` was executed. -/
def Proposed (s : Nat) (ds : List Delivery) : Prop :=
  ∃ d ∈ ds, ∃ m ∈ d.msgs, m.type = .proposal ∧ m.body.seq = s

/-- Once number `s` is decided with `v`, it stays so until it is executed, and it is
executed under it, unless one of the later deliveries brings a PROPOSAL for `s`; that makes
it 1. -/
theorem decision_stable (hash : Bytes → Nat) (tsc : Nat → Nat) (n start finish : Bandle)
    (first later : List Delivery) (s v : Nat)
    (near : ∀ d ∈ first ++ later, ∀ m ∈ d.msgs, n.executeNext ≤ m.body.seq ∧
      m.body.seq < n.executeNext + kCompletionSlots)
    (number : s < n.executeNext + kCompletionSlots)
    (began : first.foldl (deliver hash tsc) n = start)
    (ended : later.foldl (deliver hash tsc) start = finish)
    (waiting : start.executeNext ≤ s) (decided : DecidedAs start s v) :
    (finish.executeNext ≤ s →
      DecidedAs finish s v ∨ Proposed s later ∧ DecidedAs finish s 1) ∧
    (s < finish.executeNext →
      (∃ r ∈ executedSince start finish, r.seq = s) ∧
      ∀ r ∈ executedSince start finish, r.seq = s →
        r.decision = v ∨ Proposed s later ∧ r.decision = 1) := by
  have progress : n.executeNext ≤ start.executeNext := by
    rw [← began]
    exact deliveries_next_le
  have settled : Settled start (n.executeNext + kCompletionSlots) s
      (fun x => x = v ∨ Proposed s later ∧ x = 1) (later.foldl (deliver hash tsc) start) := by
    refine Settled.deliveries ⟨by omega, Nat.le_refl _, List.prefix_rfl, ?_, ?_, ?_⟩
      ⟨by omega, number⟩ ?_
    · simp [executedSince]
    · exact fun _ => ⟨v, Or.inl rfl, decided⟩
    · simp [executedSince]
    · intro d member m belongs
      obtain ⟨lo, upto⟩ := near d (by simp [member]) m belongs
      exact ⟨by omega, upto, fun type same => Or.inr ⟨⟨d, member, m, belongs, type, same⟩, rfl⟩⟩
  rw [ended] at settled
  constructor
  · intro still
    obtain ⟨x, kept | ⟨arrived, one⟩, holds⟩ := settled.live still
    · subst x
      exact Or.inl holds
    · subst x
      exact Or.inr ⟨arrived, holds⟩
  · intro executed
    refine ⟨?_, fun r member same => settled.done r member same⟩
    have member : s ∈ (executedSince start finish).map Executed.seq := by
      rw [settled.numbers, List.mem_range'_1]
      omega
    obtain ⟨r, belongs, seq⟩ := List.mem_map.mp member
    exact ⟨r, belongs, seq⟩

/-! ### A decision that does not last -/

def decideTwo (value : Nat) : Delivery := .one { type := .decide, body := { seq := 2, value := value } }

def proposeTwo : Delivery := .one { body := { seq := 2 } }

/-- Number 2 is decided as 1 by a DECIDE and waits for number 1; a second DECIDE with
another value changes nothing. -/
theorem decision_stable_twice :
    DecidedAs ([decideTwo 1].foldl (deliver List.length fun _ => 0)
      (Bandle.started (defaultSettings 0) .empty 0)) 2 1 ∧
    DecidedAs ([decideTwo 0].foldl (deliver List.length fun _ => 0)
      ([decideTwo 1].foldl (deliver List.length fun _ => 0)
        (Bandle.started (defaultSettings 0) .empty 0))) 2 1 := by
  have decided : DecidedAs ([decideTwo 1].foldl (deliver List.length fun _ => 0)
      (Bandle.started (defaultSettings 0) .empty 0)) 2 1 := ⟨rfl, rfl, rfl⟩
  have near : ∀ d ∈ [decideTwo 1] ++ [decideTwo 0], ∀ m ∈ d.msgs,
      (Bandle.started (defaultSettings 0) .empty 0).executeNext ≤ m.body.seq ∧
      m.body.seq < (Bandle.started (defaultSettings 0) .empty 0).executeNext +
        kCompletionSlots := by
    intro d member m belongs
    have two : m.body.seq = 2 := by
      simp only [List.cons_append, List.nil_append, List.mem_cons, List.not_mem_nil,
        or_false] at member
      rcases member with rfl | rfl <;>
      · rw [List.mem_singleton.mp belongs]
    rw [two]
    change 1 ≤ 2 ∧ 2 < 1 + 65536
    decide
  refine ⟨decided, ?_⟩
  rcases (decision_stable List.length (fun _ => 0) _ _ _ [decideTwo 1] [decideTwo 0] 2 1 near
    (by change 2 < 1 + 65536; decide) rfl rfl (by change 1 ≤ 2; decide) decided).1
    (by change 1 ≤ 2; decide) with kept | ⟨-, accepted⟩
  · exact kept
  · exact accepted

/-- A PROPOSAL for a number that was decided as 0 and is not executed turns the
decision into 1. -/
theorem proposal_overrides_decision :
    DecidedAs ([decideTwo 0].foldl (deliver List.length fun _ => 0)
      (Bandle.started (defaultSettings 0) .empty 0)) 2 0 ∧
    ([proposeTwo].foldl (deliver List.length fun _ => 0)
      ([decideTwo 0].foldl (deliver List.length fun _ => 0)
        (Bandle.started (defaultSettings 0) .empty 0))).executeNext ≤ 2 ∧
    ¬ DecidedAs ([proposeTwo].foldl (deliver List.length fun _ => 0)
      ([decideTwo 0].foldl (deliver List.length fun _ => 0)
        (Bandle.started (defaultSettings 0) .empty 0))) 2 0 := by
  refine ⟨⟨rfl, rfl, rfl⟩, by change 1 ≤ 2; decide, ?_⟩
  rintro ⟨-, -, decision⟩
  have one : (([proposeTwo].foldl (deliver List.length fun _ => 0)
      ([decideTwo 0].foldl (deliver List.length fun _ => 0)
        (Bandle.started (defaultSettings 0) .empty 0))).log (slotOf 2)).decision = 1 := rfl
  rw [one] at decision
  cases decision

end BandleCxl.Guarantees
