import BandleCxl.Guarantees.Agreement
import BandleCxl.Invariant.Submission

/-!
Real-time and program order. Requests are named by their position among the valid
requests a node submits. The first part rests on one cross-node fact: a request
that is done has a number below some `execute_next_`, and that counter never
passes the `next_seq_` from which a later request takes its number.
-/
namespace BandleCxl.Guarantees
open Library Source Bandle Invariant

variable {hash : Bytes → Nat} {d : Deployment} {s : Cluster}

theorem small_of_windows (windows : ∀ i, effectiveWindow (d.settings i) ≤ 16384) (i : NodeId) :
    leadBound (d.settings i) ≤ pendingLead :=
  Nat.le_trans (leadBound_le (windows i) (by decide)) (by decide)

/-- A proposal numbered after a moment has a number from that moment on. -/
theorem numbered_later (run : (clusterSystem hash d).Execution) {j : NodeId} {k l : Nat}
    {m : BandleMessage} (later : m ∈ ((run.state l).node j).hist.numbered)
    (fresh : m ∉ ((run.state k).node j).hist.numbered) :
    ((run.state k).node j).nextSeq ≤ m.body.seq := by
  have order : k ≤ l := by
    by_contra before
    exact fresh ((numbered_mono run j (by omega)).subset later)
  have now := flow_reachable (run.reachable k)
  obtain ⟨q, found, seq, -⟩ := (flow_reachable (run.reachable l)).seq_of_mem later
  have next := now.next j
  by_contra below
  have inside : q < ((run.state k).node j).hist.numbered.length := by omega
  obtain ⟨rest, split⟩ := numbered_mono run j order
  rw [← split, List.getElem?_append_left inside] at found
  exact fresh (List.mem_of_getElem? found)

/-- Executed in number order: below means earlier. -/
theorem executed_before (run : (clusterSystem hash d).Execution) {k t : Nat} {i n : NodeId}
    {A B : BandleMessage} (numbered : A ∈ ((run.state k).node i).hist.numbered)
    (lt : A.body.seq < B.body.seq) (done : recordOf B ∈ ((run.state t).node n).hist.executed) :
    ∃ p q : Nat, p < q ∧ ((run.state t).node n).hist.executed[p]? = some (recordOf A) ∧
      ((run.state t).node n).hist.executed[q]? = some (recordOf B) := by
  have flow := flow_reachable (run.reachable t)
  obtain ⟨q, found⟩ := List.getElem?_of_mem done
  have inside := (List.getElem?_eq_some_iff.mp found).1
  obtain ⟨m, -, seq, record⟩ := (flow.replica n).executed q _ found
  have position : B.body.seq = q + 1 := (congrArg Executed.seq record).trans seq
  obtain ⟨c, -, seqA, -⟩ := (flow_reachable (run.reachable k)).seq_of_mem numbered
  have pos : 1 ≤ A.body.seq := by
    unfold number at seqA
    omega
  have earlier : A.body.seq - 1 < ((run.state t).node n).hist.executed.length := by omega
  obtain ⟨l, m', numbered', seq', record'⟩ := executed_numbered flow n earlier
  have same := numbered_unique run numbered' numbered (by omega)
  refine ⟨A.body.seq - 1, q, by omega, ?_, found⟩
  rw [List.getElem?_eq_getElem earlier, record', same]

theorem clientNumbered_seq (windows : ∀ i, effectiveWindow (d.settings i) ≤ 16384)
    (reached : (clusterSystem hash d).Reachable s) (i : NodeId) {k : Nat} {m : BandleMessage}
    (found : (clientNumbered (s.node i))[k]? = some m) :
    m.body.seq = number i + 3 * k ∧ ∃ r, (requestsOf d i)[k]? = some r ∧ Carries r m := by
  obtain ⟨batches, clients, noops, done, h⟩ :=
    submission_reachable (small_of_windows windows) reached i
  rw [h.ledger.clientNumbered_eq] at found
  have id : (s.node i).cfg.nodeId = number i := by
    rw [((control_reachable reached).node i).settings, d.ids i]
  have seq := h.ledger.seqs k m found
  rw [id] at seq
  exact ⟨seq, h.request found⟩

/-- A request without a proposal at a position has no number yet. -/
theorem unnumbered_fresh (windows : ∀ i, effectiveWindow (d.settings i) ≤ 16384)
    (run : (clusterSystem hash d).Execution) {j : NodeId} {k l b : Nat} {m : BandleMessage}
    (later : (clientNumbered ((run.state l).node j))[b]? = some m)
    (none : (clientNumbered ((run.state k).node j))[b]? = none) :
    m ∉ ((run.state k).node j).hist.numbered := by
  intro early
  have client : m ∈ clientNumbered ((run.state k).node j) :=
    List.mem_filter.mpr ⟨early, (List.mem_filter.mp (List.mem_of_getElem? later)).2⟩
  obtain ⟨c, found⟩ := List.getElem?_of_mem client
  have first := (clientNumbered_seq windows (run.reachable k) j found).1
  have second := (clientNumbered_seq windows (run.reachable l) j later).1
  have same : c = b := by omega
  rw [same, none] at found
  cases found

/-- For requests `a` of node `i` and `b` of node `j`, with proposals `A` and `B`:
if `A` was done at a moment when `b` had no number, then `A` precedes `B`; and two
requests of one node are numbered in the order they were submitted. Whoever
executes `B` has executed `A` before it. -/
theorem real_time_and_program_order (hash : Bytes → Nat) (d : Deployment)
    (windows : ∀ i, effectiveWindow (d.settings i) ≤ 16384)
    (run : (clusterSystem hash d).Execution) (i j : NodeId) (k l a b : Nat)
    (A B : BandleMessage) (givenA : (clientNumbered ((run.state k).node i))[a]? = some A)
    (givenB : (clientNumbered ((run.state l).node j))[b]? = some B)
    (ordered : (A.body.seq ∈ ((run.state k).node i).acct.completed ∧
        (clientNumbered ((run.state k).node j))[b]? = none) ∨ (i = j ∧ a < b)) :
    A.body.seq < B.body.seq ∧
    (∃ r, (requestsOf d i)[a]? = some r ∧ Carries r A) ∧
    (∃ r, (requestsOf d j)[b]? = some r ∧ Carries r B) ∧
    ∀ t n, recordOf B ∈ ((run.state t).node n).hist.executed →
      ∃ p q : Nat, p < q ∧ ((run.state t).node n).hist.executed[p]? = some (recordOf A) ∧
        ((run.state t).node n).hist.executed[q]? = some (recordOf B) := by
  obtain ⟨seqA, carriesA⟩ := clientNumbered_seq windows (run.reachable k) i givenA
  obtain ⟨seqB, carriesB⟩ := clientNumbered_seq windows (run.reachable l) j givenB
  have numberedA := (List.mem_filter.mp (List.mem_of_getElem? givenA)).1
  have numberedB := (List.mem_filter.mp (List.mem_of_getElem? givenB)).1
  have lt : A.body.seq < B.body.seq := by
    rcases ordered with ⟨done, fresh⟩ | ⟨node, before⟩
    · have flow := flow_reachable (run.reachable k)
      have executed := ((flow.replica i).completed _ done).1
      have cross := flow.next_le i j
      have later := numbered_later run numberedB (unnumbered_fresh windows run givenB fresh)
      omega
    · subst node
      omega
  refine ⟨lt, carriesA, carriesB, fun t n executed => ?_⟩
  exact executed_before run numberedA lt executed

/-- Node 2 submits when node 1's write is done. -/
def oneAfterTheOther : (clusterSystem List.length twoWriters).Execution :=
  .ofSchedule _ (s := Cluster.initial twoWriters) rfl
    [.submit 0 fun _ _ => 0, .admission 0 fun _ => 0, .ready 0, .publish 0, .publish 0, .publish 0,
      .selfDeliver 0 fun _ => 0, .submit 1 fun _ _ => 0, .admission 1 fun _ => 0]

theorem order_oneAfterTheOther :
    ∃ A B, (clientNumbered ((oneAfterTheOther.state 7).node 0))[0]? = some A ∧
      (clientNumbered ((oneAfterTheOther.state 9).node 1))[0]? = some B ∧
      A.body.seq < B.body.seq := by
  refine ⟨_, _, rfl, rfl, ?_⟩
  exact (real_time_and_program_order List.length twoWriters
    (fun _ => by change max 192 (3 * 32 + 3) ≤ 16384; decide) oneAfterTheOther 0 1 7 9 0 0 _ _ rfl rfl
    (Or.inl ⟨by decide, rfl⟩)).1

end BandleCxl.Guarantees
