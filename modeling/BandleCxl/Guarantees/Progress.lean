import BandleCxl.Invariant.Lap

/-!
No cluster-wide wedge. When nothing is in flight, every replica has executed
everything up to the smallest `next_seq_`. The node that owns this number is the
one all wait for, and neither its admission window nor its no-op limit can hold it
back.
-/
namespace BandleCxl.Guarantees
open Library Source Bandle Invariant

/-- Nothing is on its way: some node is unfinished, all run, rings and receive
buffers are empty and each node has delivered to itself what it numbered. -/
structure Quiescent (s : Cluster) : Prop where
  unfinished : ∃ i, s.nodeFinished i = false
  running : ∀ i, (s.node i).running = true
  rings : ∀ i j, s.ring i j = []
  received : ∀ j i, s.recv j i = []
  delivered : ∀ i, ∀ m ∈ (s.node i).hist.numbered, m ∈ (s.node i).hist.handled

/-- The no-op interval has elapsed on the 64-bit clock. -/
def IntervalElapsed (n : Bandle) (now : Nat) : Prop :=
  mul64 n.cfg.noopIntervalUs 1000 ≤ sub64 now n.lastNoopNs

/-- Without wrap-around this is the plain comparison of times. -/
theorem intervalElapsed_of_le {n : Bandle} {now : Nat}
    (passed : n.lastNoopNs + n.cfg.noopIntervalUs * 1000 ≤ now) (clock : now < 2 ^ 64) :
    IntervalElapsed n now := by
  unfold IntervalElapsed mul64 sub64
  rw [Nat.mod_eq_of_lt (by omega)]
  have shifted : now + 2 ^ 64 - n.lastNoopNs = 2 ^ 64 + (now - n.lastNoopNs) := by omega
  rw [shifted, Nat.add_mod_left, Nat.mod_eq_of_lt (by omega)]
  omega

/-- The smallest `next_seq_`. -/
def leastNextSeq (s : Cluster) : Nat :=
  min (s.node 0).nextSeq (min (s.node 1).nextSeq (s.node 2).nextSeq)

theorem leastNextSeq_le (s : Cluster) (i : NodeId) : leastNextSeq s ≤ (s.node i).nextSeq := by
  unfold leastNextSeq
  fin_cases i <;> simp only [Fin.zero_eta, Fin.mk_one, Fin.reduceFinMk] <;> omega

theorem le_leastNextSeq {s : Cluster} {q : Nat} (below : ∀ i, q ≤ (s.node i).nextSeq) :
    q ≤ leastNextSeq s :=
  Nat.le_min.mpr ⟨below 0, Nat.le_min.mpr ⟨below 1, below 2⟩⟩

variable {hash : Bytes → Nat} {d : Deployment} {s : Cluster}

/-- Whatever a client or a proposer thread has not sent to a peer it has not
delivered to its own node either. -/
theorem unsent_self {i j : NodeId} {m : BandleMessage}
    (unsent : m ∈ Client.unsent i (s.client i) j ++ Proposer.unsent i (s.proposer i) j) :
    m ∈ Client.unsent i (s.client i) i ++ Proposer.unsent i (s.proposer i) i := by
  rw [List.mem_append] at unsent ⊢
  rcases unsent with client | noop
  · left
    cases pc : s.client i with
    | broadcast cap chunk rest => simpa [pc, Client.unsent] using client
    | publish cap chunk rest peers =>
      simp only [pc, Client.unsent] at client ⊢
      split at client
      · simpa using client
      · simp at client
    | deliver cap chunk rest =>
      simp only [pc, Client.unsent] at client ⊢
      split at client
      · simpa using client
      · simp at client
    | _ => simp [pc, Client.unsent] at client
  · right
    cases pc : s.proposer i with
    | send p peers =>
      simp only [pc, Proposer.unsent] at noop ⊢
      split at noop
      · simpa using noop
      · simp at noop
    | deliver p =>
      simp only [pc, Proposer.unsent] at noop ⊢
      split at noop
      · simpa using noop
      · simp at noop
    | _ => simp [pc, Proposer.unsent] at noop

theorem Quiescent.handled (quiet : Quiescent s) (flow : FlowInv hash d.preload s) (i j : NodeId) :
    ∀ m ∈ (s.node i).hist.numbered, m ∈ (s.node j).hist.handled := by
  intro m numbered
  rw [← flow.kept i j (quiet.running i), List.mem_append] at numbered
  rcases numbered with handled | flying
  · exact (List.mem_filter.mp handled).1
  · exfalso
    have own : m ∈ inflight s i i := by
      simp only [inflight, quiet.rings, quiet.received, List.nil_append] at flying ⊢
      exact unsent_self flying
    exact flow.inflight_unhandled own
      (quiet.delivered i m (flow.inflight_numbered own)) rfl

/-- The owner of a number. -/
theorem exists_owner {q : Nat} (pos : 1 ≤ q) : ∃ i : NodeId, ∃ k, q = number i + 3 * k :=
  ⟨⟨(q - 1) % 3, Nat.mod_lt _ (by decide)⟩, (q - 1) / 3, by
    unfold number
    dsimp only
    omega⟩

/-- A quiescent node stands at a number that its owner has not handed out. -/
theorem Quiescent.stands (quiet : Quiescent s) (flow : FlowInv hash d.preload s)
    (kept : ∀ j, Retained (s.node j)) (j : NodeId) : (s.node j).executeNext = leastNextSeq s := by
  have count := (flow.replica j).count
  obtain ⟨i, k, owner⟩ := exists_owner (q := (s.node j).executeNext) (by omega)
  have next := flow.next i
  refine Nat.le_antisymm (le_leastNextSeq (flow.next_le j)) ?_
  refine Nat.le_trans (leastNextSeq_le s i) ?_
  by_contra behind
  have inside : k < (s.node i).hist.numbered.length := by omega
  have found := List.getElem?_eq_getElem inside
  have seq := flow.seqs i k _ found
  have handled := quiet.handled flow i j _ (List.getElem_mem inside)
  have same : ((s.node i).hist.numbered[k]).body.seq = (s.node j).executeNext := by omega
  obtain ⟨here, known, decided, -⟩ := kept j _ handled (by omega)
  rw [same] at here known decided
  exact flow.drained j ⟨here, decided, fun _ => known⟩

theorem spaced_of_windows (windows : ∀ i, effectiveWindow (d.settings i) ≤ 16384) : Spaced d := by
  intro i j _
  have left := leadBound_le (windows i) (by decide)
  have right := leadBound_le (windows j) (by decide)
  have : kCompletionSlots = 65536 := rfl
  omega

/-- In a quiescent reachable state every `execute_next_` equals the smallest
`next_seq_`, and the owner of that number is not refused: a chunk waiting for
admission passes the window test, and with its input done the no-op test succeeds
as soon as the interval has elapsed. -/
theorem no_wedge (hash : Bytes → Nat) (d : Deployment)
    (windows : ∀ i, effectiveWindow (d.settings i) ≤ 16384) (s : Cluster)
    (reached : (clusterSystem hash d).Reachable s) (quiet : Quiescent s) :
    (∀ j, (s.node j).executeNext = leastNextSeq s) ∧
    (∃ m, (s.node m).nextSeq = leastNextSeq s) ∧
    ∀ m, (s.node m).nextSeq = leastNextSeq s →
      (∀ cap chunk rest, s.client m = .admission cap chunk rest →
        (s.node m).Admits chunk.length) ∧
      ((s.node m).inputDone = true → ∀ now, IntervalElapsed (s.node m) now →
        (s.node m).shouldProposeNoopLocked s.allNodesFinished now = true) := by
  have flow := flow_reachable reached
  have control := control_reachable reached
  have clean := clean_reachable (spaced_of_windows windows) reached
  have stands := quiet.stands flow fun j => retained_reachable reached j (clean j)
  refine ⟨stands, ?_, fun m least => ⟨?_, ?_⟩⟩
  · unfold leastNextSeq
    rcases Nat.le_total (s.node 0).nextSeq (min (s.node 1).nextSeq (s.node 2).nextSeq) with a | a
    · exact ⟨0, (Nat.min_eq_left a).symm⟩
    · rcases Nat.le_total (s.node 1).nextSeq (s.node 2).nextSeq with b | b
      · exact ⟨1, by omega⟩
      · exact ⟨2, by omega⟩
  · intro cap chunk rest pc
    have node := control.node m
    rw [pc] at node
    obtain ⟨-, le, some, short⟩ := node.client
    have pos := List.length_pos_iff.mpr some
    have small : chunk.length % 2 ^ 32 = chunk.length :=
      Nat.mod_eq_of_lt (Nat.lt_of_le_of_lt (Nat.le_trans short le) (d.settings m).batch_lt)
    have here := stands m
    unfold Admits chunkWindow maxInflightSeqWindow
    rw [small, node.settings, (d.settings m).three]
    omega
  · intro input now elapsed
    have proposed := (control.node m).proposed
    have here := stands m
    have unfinished : s.allNodesFinished = false := by
      obtain ⟨i, missing⟩ := quiet.unfinished
      unfold Cluster.allNodesFinished
      rw [List.all_eq_false]
      refine ⟨i, ?_, by simp [missing]⟩
      fin_cases i <;> simp
    unfold IntervalElapsed at elapsed
    unfold shouldProposeNoopLocked
    rw [input, unfinished, (s.node m).cfg.three]
    simp only [Bool.not_true, Bool.or_self, Bool.false_eq_true, if_false]
    rw [if_neg (by omega)]
    exact decide_eq_true (by omega)

theorem default_windows (i : NodeId) : effectiveWindow (defaultSettings i) ≤ 16384 := by
  change max 192 (3 * 32 + 3) ≤ 16384
  decide

/-- Node 1's write is executed everywhere and number 2 is next: a chunk that its owner has built
is admitted, and if the owner has nothing to submit it may propose a no-op after 100 us. -/
theorem no_wedge_second_number :
    (∃ s, (clusterSystem List.length twoWriters).run (Cluster.initial twoWriters)
        (deliverEverywhere ++ [.submit 1 fun _ _ => 0]) = some s ∧
      leastNextSeq s = 2 ∧ (∀ j, (s.node j).executeNext = 2) ∧ (s.node 1).Admits 1) ∧
    ∃ s, (clusterSystem List.length oneWrite).run (Cluster.initial oneWrite)
        (deliverEverywhere ++ [.markInputDone 1]) = some s ∧ leastNextSeq s = 2 ∧
      ∀ now, 100000 ≤ now → now < 2 ^ 64 →
        (s.node 1).shouldProposeNoopLocked s.allNodesFinished now = true := by
  constructor
  · refine ⟨_, rfl, rfl, ?_⟩
    have result := no_wedge List.length twoWriters default_windows _
      (.of_run (deliverEverywhere ++ [.submit 1 fun _ _ => 0]) (.start rfl) rfl)
      { unfinished := ⟨1, rfl⟩
        running := fun i => by fin_cases i <;> rfl
        rings := fun i j => by fin_cases i <;> fin_cases j <;> rfl
        received := fun j i => by fin_cases i <;> fin_cases j <;> rfl
        delivered := fun i m numbered => by
          fin_cases i
          · exact numbered
          · exact absurd numbered List.not_mem_nil
          · exact absurd numbered List.not_mem_nil }
    exact ⟨result.1, (result.2.2 1 rfl).1 1 _ [] rfl⟩
  · refine ⟨_, rfl, rfl, fun now late clock => ?_⟩
    have result := no_wedge List.length oneWrite default_windows _
      (.of_run (deliverEverywhere ++ [.markInputDone 1]) (.start rfl) rfl)
      { unfinished := ⟨0, rfl⟩
        running := fun i => by fin_cases i <;> rfl
        rings := fun i j => by fin_cases i <;> fin_cases j <;> rfl
        received := fun j i => by fin_cases i <;> fin_cases j <;> rfl
        delivered := fun i m numbered => by
          fin_cases i
          · exact numbered
          · exact absurd numbered List.not_mem_nil
          · exact absurd numbered List.not_mem_nil }
    exact (result.2.2 1 rfl).2 rfl now (intervalElapsed_of_le late clock)

end BandleCxl.Guarantees
