import BandleCxl.Invariant.MemorySends

/-!
The other steps: calls that are entered and left, `stop`, and the receive threads, which take
their batch from a ring when they store its tail.
-/
namespace BandleCxl.Invariant
open Library Source Bandle

variable {hash : Bytes → Nat} {d : Deployment} {r : RingShape} {m m' : MemoryCluster} {c : Cluster}
  {i : NodeId}

/-! ### Calls -/

theorem Related.admission (h : Related r m c) {tsc : Nat → Nat} {control : Cluster}
    {side : SendSide Sender} {cap : Nat} {batch : MessageArray} {rest : List BandleMessage}
    (fires : Fires hash m.control (.admission i tsc) control)
    (pc : control.client i = .broadcast cap batch.msgs rest)
    (called : (m.side i).callStep .client (.broadcastBatch batch) = some side)
    (some : batch.msgs ≠ []) (fits : Fits batch.msgs = true) :
    ∃ c', c.step hash (.admission i tsc) = Option.some c' ∧
      Related r (MemoryCluster.setSide { m with control := control } i side) c' := by
  have inv := h.inv.admission fires pc called some fits
  have entered := callStep_cases called some
  subst entered
  cases fires with
  | @admission _ _ cap chunk rest before admits =>
    obtain ⟨handled, node⟩ := (h.beside i).node
    obtain ⟨same, -, punctual⟩ := h.atClient (i := i) (by rw [before]; rfl) (by simp [before])
    have numbered : numberChunk tsc (c.node i) chunk =
        (numberChunk tsc (m.control.node i) chunk).map (recast (on (m.side i)) handled) id := by
      rw [node]
      exact numberChunk_recast _ chunk
    have room : (c.node i).Admits chunk.length := by
      rw [node]
      exact admits
    have stepped : c.step hash (.admission i tsc) = Option.some
        ((c.setNode i (recast (on (m.side i)) handled
          (numberChunk tsc (m.control.node i) chunk).1)).setClient i
            (.broadcast cap (numberChunk tsc (m.control.node i) chunk).2 rest)) := by
      simp only [Cluster.step, Cluster.admitStep, same, before, numbered]
      exact if_pos room
    refine ⟨_, stepped, h.atNode (i := i) inv ⟨⟨handled, ?_⟩, ?_, ?_, ?_, ?_⟩ (fun k other => ?_)
      ⟨⟨rfl, rfl⟩, ⟨rfl, rfl⟩, h.finished, h.input⟩ ?_⟩
    · simp only [MemoryCluster.setSide, Cluster.setNode, Cluster.setClient, Function.update_self]
      rfl
    · simp only [MemoryCluster.setSide, Cluster.setNode, Cluster.setClient, SendSide.setPc,
        Function.update_self]
      change _ = clientView (late (m.side i)) i _ _
      rw [punctual]
      rfl
    · simp only [MemoryCluster.setSide, Cluster.setNode, Cluster.setClient, Function.update_self]
      exact (h.beside i).proposer
    · simp only [MemoryCluster.setSide, Function.update_self]
      intro tardy
      exact absurd (punctual.symm.trans tardy) Bool.noConfusion
    · simp only [MemoryCluster.setSide, Function.update_self]
      exact (h.beside i).ring
    · constructor <;> simp only [MemoryCluster.setSide, Cluster.setNode, Cluster.setClient,
        Function.update_of_ne other, and_self]
    · simp only [MemoryCluster.setSide, Function.update_self]
      rfl

theorem Related.noopNumber (h : Related r m c) {now : Nat} {control : Cluster}
    {side : SendSide Sender} {p : BandleMessage} {peers : List NodeId}
    (fires : Fires hash m.control (.noopNumber i now) control)
    (pc : control.proposer i = .send p peers)
    (called : (m.side i).callStep .proposer (.broadcast p) = some side) :
    ∃ c', c.step hash (.noopNumber i now) = some c' ∧
      Related r (MemoryCluster.setSide { m with control := control } i side) c' := by
  have inv := h.inv.noopNumber fires pc called
  have entered := callStep_cases called (List.cons_ne_nil p [])
  subst entered
  cases fires with
  | @noopNumber _ _ q before =>
    have told : q = p ∧ peersOf i = peers := by
      simpa only [Cluster.setProposer, Function.update_self, ProposerPc.send.injEq] using pc
    obtain ⟨rfl, -⟩ := told
    obtain ⟨handled, node⟩ := (h.beside i).node
    obtain ⟨same, outside, punctual, -⟩ := h.atProposer (i := i) (by rw [before]; rfl)
    have stepped : c.step hash (.noopNumber i now) = some ((c.setNode i
        ((c.node i).numberNoop now q)).setProposer i (.send q (peersOf i))) := by
      simp only [Cluster.step, Cluster.noopNumberStep, same, before]
    have tardy : late { (m.side i).setPc .proposer (.entered (.broadcast q)) with
        calls := Function.update (m.side i).calls .proposer
          ((m.side i).calls .proposer ++ [[q]]) } = late (m.side i) := by
      rw [late, late, outside]
      rfl
    have going : on { (m.side i).setPc .proposer (.entered (.broadcast q)) with
        calls := Function.update (m.side i).calls .proposer
          ((m.side i).calls .proposer ++ [[q]]) } = on (m.side i) := by
      rw [on, on, outside]
      rfl
    refine ⟨_, stepped, h.atNode (i := i) inv ⟨⟨handled, ?_⟩, ?_, ?_, ?_, ?_⟩ (fun k other => ?_)
      ⟨⟨rfl, rfl⟩, ⟨rfl, rfl⟩, h.finished, h.input⟩ ?_⟩
    · simp only [MemoryCluster.setSide, Cluster.setNode, Cluster.setProposer, Function.update_self,
        node]
      refine Eq.trans ?_ (congrArg (fun b => recast b handled _) going.symm)
      rfl
    · simp only [MemoryCluster.setSide, Cluster.setNode, Cluster.setProposer, Function.update_self]
      refine (h.beside i).client.trans (congrArg (fun b => clientView b i _ _) tardy.symm)
    · simp only [MemoryCluster.setSide, Cluster.setNode, Cluster.setProposer, SendSide.setPc,
        Function.update_self]
      rfl
    · simp only [MemoryCluster.setSide, Function.update_self]
      intro gone
      exact absurd (punctual.symm.trans (tardy.symm.trans gone)) Bool.noConfusion
    · simp only [MemoryCluster.setSide, Function.update_self]
      exact (h.beside i).ring
    · constructor <;> simp only [MemoryCluster.setSide, Cluster.setNode, Cluster.setProposer,
        Function.update_of_ne other, and_self]
    · simp only [MemoryCluster.setSide, Function.update_self]
      exact tardy

/-- A return from `broadcast_batch` or `broadcast` does not show. -/
theorem Related.unlock (h : Related r m c) {u : Sender} (stepped : m.unlockStep i u = some m') :
    Related r m' c := by
  have inv := h.inv.unlock stepped
  obtain ⟨side, unlocked, unlocks⟩ := unlockStep_cases stepped
  obtain ⟨here, rfl⟩ := sideUnlock_cases unlocked
  cases unlocks with
  | client pc =>
    obtain ⟨punctual, -, -, shown⟩ := h.clientAt pc
    rw [here] at shown
    refine h.atNode (i := i) inv ⟨?_, ?_, ?_, ?_, ?_⟩ (fun k other => ?_)
      ⟨⟨rfl, rfl⟩, ⟨rfl, rfl⟩, h.finished, h.input⟩ ?_
    · simp only [MemoryCluster.setSide, Cluster.setClient, Function.update_self]
      exact (h.beside i).node
    · simp only [MemoryCluster.setSide, Cluster.setClient, SendSide.setPc, Function.update_self]
      rw [shown]
      change _ = clientView (late (m.side i)) i _ _
      rw [punctual]
      rfl
    · simp only [MemoryCluster.setSide, Cluster.setClient, Function.update_self]
      exact (h.beside i).proposer
    · simp only [MemoryCluster.setSide, Function.update_self]
      intro tardy
      exact absurd (punctual.symm.trans tardy) Bool.noConfusion
    · simp only [MemoryCluster.setSide, Function.update_self]
      exact (h.beside i).ring
    · constructor <;> simp only [MemoryCluster.setSide, Cluster.setClient,
        Function.update_of_ne other, and_self]
    · simp only [MemoryCluster.setSide, Function.update_self]
      rfl
  | proposer pc =>
    have shown := (h.beside i).proposer
    rw [here, pc] at shown
    have standing : ∀ side : SendSide Sender, side.running = (m.side i).running →
        side.pc .proposer = .outside → late side = late (m.side i) ∧ on side = on (m.side i) := by
      intro side running outside
      rw [late, late, on, on, running, outside, here]
      exact ⟨rfl, rfl⟩
    obtain ⟨tardy, going⟩ := standing { (m.side i).setPc .proposer .outside with owner := none } rfl
      (by simp only [SendSide.setPc, Function.update_self])
    refine h.atNode (i := i) inv ⟨?_, ?_, ?_, ?_, ?_⟩ (fun k other => ?_)
      ⟨⟨rfl, rfl⟩, ⟨rfl, rfl⟩, h.finished, h.input⟩ ?_
    · simp only [MemoryCluster.setSide, Cluster.setProposer, Function.update_self, going]
      exact (h.beside i).node
    · simp only [MemoryCluster.setSide, Cluster.setProposer, Function.update_self, tardy]
      exact (h.beside i).client
    · simp only [MemoryCluster.setSide, Cluster.setProposer, SendSide.setPc, Function.update_self]
      exact shown
    · simp only [MemoryCluster.setSide, Function.update_self, tardy]
      exact (h.beside i).joining
    · simp only [MemoryCluster.setSide, Function.update_self]
      exact (h.beside i).ring
    · constructor <;> simp only [MemoryCluster.setSide, Cluster.setProposer,
        Function.update_of_ne other, and_self]
    · simp only [MemoryCluster.setSide, Function.update_self, tardy]

/-! ### The end of a run -/

/-- `stop` shows at once, or when the push that the proposer is in has ended. -/
theorem Related.stop (h : Related r m c) {control : Cluster}
    (fires : Fires hash m.control (.stop i) control) :
    ∃ schedule c', (clusterSystem hash d).run c schedule = some c' ∧
      Related r (MemoryCluster.clearRunning { m with control := control } i) c' := by
  have inv := h.inv.stop fires
  cases fires with
  | stop pc finished =>
    obtain ⟨handled, node⟩ := (h.beside i).node
    obtain ⟨same, outside, punctual⟩ := h.atClient (i := i) (by rw [pc]; rfl) (by simp [pc])
    have present : ∀ src, m.control.recvExited i src = false := by
      intro src
      refine Bool.eq_false_iff.mpr fun gone => ?_
      have after := (h.inv.stops i).mp (h.inv.exited i src gone).2.1
      rw [pc] at after
      cases after
    cases pushes : pushing ((m.side i).pc .proposer) with
    | true =>
      have going : on (m.side i) = true := by rw [on, pushes, Bool.or_true]
      have going' : on { m.side i with running := false } = true := by
        rw [on, pushes, Bool.or_true]
      have tardy : late { m.side i with running := false } = true := by rw [late, pushes]; rfl
      refine ⟨[], c, rfl, inv, fun k => ?_, h.recv, fun j src => ?_, h.finished, h.input⟩
      · by_cases here : k = i
        · subst here
          refine ⟨⟨handled, ?_⟩, ?_, ?_, ?_, ?_⟩
          · simp only [MemoryCluster.clearRunning, MemoryCluster.setSide, Cluster.setNode,
              Cluster.setClient, Function.update_self, going', node, going]
            rfl
          · simp only [MemoryCluster.clearRunning, MemoryCluster.setSide, Cluster.setNode,
              Cluster.setClient, Function.update_self, tardy, outside, same, pc]
            rfl
          · simp only [MemoryCluster.clearRunning, MemoryCluster.setSide, Cluster.setNode,
              Cluster.setClient, Function.update_self]
            exact (h.beside k).proposer
          · intro _
            simp only [MemoryCluster.clearRunning, MemoryCluster.setSide, Cluster.setNode,
              Cluster.setClient, Function.update_self]
          · simp only [MemoryCluster.clearRunning, MemoryCluster.setSide, Function.update_self]
            exact (h.beside k).ring
        · refine (h.beside k).untouched ?_
          constructor <;> simp only [MemoryCluster.clearRunning, MemoryCluster.setSide,
            Cluster.setNode, Cluster.setClient, Function.update_of_ne here, and_self]
      · rw [h.exited]
        by_cases here : j = i
        · subst here
          simp [MemoryCluster.clearRunning, MemoryCluster.setSide, tardy, present src]
        · simp only [MemoryCluster.clearRunning, MemoryCluster.setSide,
            Function.update_of_ne here]
          rfl
    | false =>
      have halted : on { m.side i with running := false } = false := by rw [on, pushes]; rfl
      have tardy : late { m.side i with running := false } = late (m.side i) := by
        rw [late, pushes, punctual]
        rfl
      have stepped : c.step hash (.stop i) = some
          ((c.setNode i { c.node i with running := false }).setClient i .joining) := by
        simp only [Cluster.step, Cluster.stopStep, same, pc, h.allFinished, finished, if_true]
      refine ⟨[.stop i], (c.setNode i { c.node i with running := false }).setClient i .joining,
        ?_, h.atNode (i := i) inv ⟨⟨handled, ?_⟩, ?_, ?_, ?_, ?_⟩
        (fun k other => ?_) ⟨⟨rfl, rfl⟩, ⟨rfl, rfl⟩, h.finished, h.input⟩ ?_⟩
      · simp only [TransitionSystem.run, clusterSystem, stepped]
        rfl
      · simp only [MemoryCluster.clearRunning, MemoryCluster.setSide, Cluster.setNode,
          Cluster.setClient, Function.update_self, halted, node]
        rfl
      · simp only [MemoryCluster.clearRunning, MemoryCluster.setSide, Cluster.setNode,
          Cluster.setClient, Function.update_self, tardy, outside, punctual]
        rfl
      · simp only [MemoryCluster.clearRunning, MemoryCluster.setSide, Cluster.setNode,
          Cluster.setClient, Function.update_self]
        exact (h.beside i).proposer
      · simp only [MemoryCluster.clearRunning, MemoryCluster.setSide, Function.update_self, tardy,
          punctual]
        exact fun gone => absurd gone Bool.noConfusion
      · simp only [MemoryCluster.clearRunning, MemoryCluster.setSide, Function.update_self]
        exact (h.beside i).ring
      · constructor <;> simp only [MemoryCluster.clearRunning, MemoryCluster.setSide,
          Cluster.setNode, Cluster.setClient, Function.update_of_ne other, and_self]
      · simp only [MemoryCluster.clearRunning, MemoryCluster.setSide, Function.update_self, tardy]

theorem Related.recvExit (h : Related r m c) {j src : NodeId} {control : Cluster}
    (fires : Fires hash m.control (.recvExit j src) control)
    (idle : ((m.side src).ring j).consumer.isIdle = true) :
    ∃ schedule c', (clusterSystem hash d).run c schedule = some c' ∧
      Related r { m with control := control } c' := by
  have inv := h.inv.recvExit fires idle
  cases fires with
  | recvExit peer stopped empty =>
    have spent : c.recv j src = [] := by
      have same := h.recv j src
      rw [empty] at same
      exact List.forall₂_nil_right_iff.mp same
    cases tardy : late (m.side j) with
    | true =>
      refine ⟨[], c, rfl, inv, fun k => ?_, h.recv, fun k from_ => ?_, h.finished, h.input⟩
      · exact (h.beside k).untouched ⟨rfl, ⟨rfl, rfl⟩, ⟨rfl, rfl⟩, ⟨rfl, rfl⟩, rfl⟩
      · rw [h.exited]
        by_cases here : k = j
        · rw [here, tardy]
          simp
        · simp only [Function.update_of_ne here]
    | false =>
      have halted : (c.node j).running = false := by
        rw [h.running]
        rw [late, h.inv.flags, stopped] at tardy
        rw [on, h.inv.flags, stopped]
        exact tardy
      have stepped : c.step hash (.recvExit j src) = some { c with
          recvExited := Function.update c.recvExited j
            (Function.update (c.recvExited j) src true) } := if_pos ⟨peer, halted, spent⟩
      refine ⟨[.recvExit j src], { c with recvExited := (Function.update c.recvExited j
        (Function.update (c.recvExited j) src true)) }, ?_, inv, fun k => ?_, h.recv,
        fun k from_ => ?_, h.finished, h.input⟩
      · simp only [TransitionSystem.run, clusterSystem, stepped]
        rfl
      · exact (h.beside k).untouched ⟨rfl, ⟨rfl, rfl⟩, ⟨rfl, rfl⟩, ⟨rfl, rfl⟩, rfl⟩
      · have before := h.exited k from_
        by_cases here : k = j
        · subst here
          rw [tardy] at before
          by_cases there : from_ = src
          · simp [there, tardy]
          · simp [there, before, tardy]
        · simp [here, before]

/-! ### Receivers -/

theorem Related.consume (h : Related r m c) (coherent : r.coherent = true) {j src : NodeId}
    {a : RingAction} (stepped : m.consumeStep r j src a = some m') :
    ∃ schedule c', (clusterSystem hash d).run c schedule = some c' ∧ Related r m' c' := by
  have inv := h.inv.consume stepped
  obtain ⟨ring, consumes, rfl⟩ := consumeStep_cases stepped
  have published := (consumer_frame consumes.reads consumes.stepped).2
  have rings := ring_update m.side j src ring
  have pcs := pc_update m.side j src ring
  have standing : ∀ k, late (Function.update m.side src ((m.side src).setRing j ring) k) =
      late (m.side k) := by
    intro k
    rw [late, late, (pcs k).1, (pcs k).2]
  rcases committed_step consumes.reads consumes.stepped with
    ⟨tail, read, rfl, here, idle, committed⟩ | ⟨other, committed⟩
  · have draining := h.inv.busy j src (by rw [here]; rfl)
    have within := h.inv.within j src
    rw [here] at within
    obtain ⟨inside, same⟩ := taken_same (h.inv.ringInv coherent src j) here
    have received : m.received j src .storeTail =
        m.control.setRecv j src ((List.range read).map ((m.side src).ring j).out) := by
      rw [MemoryCluster.received, here]
    have spent : ∀ k, m.control.recv j k = [] → c.recv j k = [] := by
      intro k empty
      have same := h.recv j k
      rw [empty] at same
      exact List.forall₂_nil_right_iff.mp same
    have guard : src ∈ peersOf j ∧ c.recvExited j src = false ∧ c.recv j src = [] ∧
        ((c.node j).cfg.pipelineWorkers ≤ 1 → ∀ k ∈ peersOf j, c.recv j k = []) ∧
        1 ≤ read ∧ read ≤ (c.ring src j).length := by
      refine ⟨draining.peer, ?_, spent src draining.idle, fun few k member => ?_, within.1, ?_⟩
      · rw [h.exited, draining.alive]
        rfl
      · rw [h.cfg] at few
        exact spent k (draining.single few k member).1
      · rw [(h.beside src).ring]
        exact inside
    have count : min read (recvBatchCapacity (c.node j).cfg.batchSize) = read := by
      rw [h.cfg]
      exact Nat.min_eq_left within.2
    have drained : c.step hash (.drain j src read) = some ((c.setRecv j src
        ((c.ring src j).take read)).setRing src j ((c.ring src j).drop read)) := by
      simp only [Cluster.step, Cluster.drainStep]
      rw [if_pos guard, count]
    rw [received] at inv ⊢
    refine ⟨[.drain j src read], (c.setRecv j src ((c.ring src j).take read)).setRing src j
      ((c.ring src j).drop read), ?_, inv, fun k => ?_, fun k from_ => ?_, fun k from_ => ?_,
      h.finished, h.input⟩
    · simp only [TransitionSystem.run, clusterSystem, drained]
      rfl
    · have beside := h.beside k
      refine beside.reread (pcs k) ⟨rfl, rfl⟩ ⟨rfl, rfl⟩ ⟨rfl, rfl⟩ fun p => ?_
      simp only [MemoryCluster.setSide, rings, Cluster.setRing, Cluster.setRecv]
      by_cases at_ : k = src
      · subst at_
        rw [Function.update_self]
        by_cases there : p = j
        · subst there
          rw [Function.update_self, if_pos ⟨rfl, rfl⟩, beside.ring, unread_shrunk published committed,
            List.length_map, List.length_range]
        · rw [Function.update_of_ne there, if_neg fun both => there both.2]
          exact beside.ring p
      · rw [Function.update_of_ne at_, if_neg fun both => at_ both.1]
        exact beside.ring p
    · simp only [Cluster.setRing, Cluster.setRecv]
      by_cases at_ : k = j
      · subst at_
        rw [Function.update_self, Function.update_self]
        by_cases there : from_ = src
        · subst there
          rw [Function.update_self, Function.update_self, (h.beside from_).ring]
          exact same
        · rw [Function.update_of_ne there, Function.update_of_ne there]
          exact h.recv k from_
      · rw [Function.update_of_ne at_, Function.update_of_ne at_]
        exact h.recv k from_
    · simp only [MemoryCluster.setSide, standing k]
      exact h.exited k from_
  · have received : m.received j src a = m.control := by
      unfold MemoryCluster.received
      split
      · exact absurd rfl other
      · rfl
    rw [received] at inv ⊢
    refine ⟨[], c, rfl, inv, fun k => ?_, h.recv, fun k from_ => ?_, h.finished, h.input⟩
    · have beside := h.beside k
      refine beside.reread (pcs k) ⟨rfl, rfl⟩ ⟨rfl, rfl⟩ ⟨rfl, rfl⟩ fun p => ?_
      simp only [MemoryCluster.setSide, rings]
      split
      · next both =>
        obtain ⟨rfl, rfl⟩ := both
        rw [beside.ring, unread, unread, published, committed]
      · exact beside.ring p
    · simp only [MemoryCluster.setSide, standing k]
      exact h.exited k from_

end BandleCxl.Invariant
