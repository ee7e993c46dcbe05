import BandleCxl.Library.Custody
import BandleCxl.Invariant.Node
import BandleCxl.Invariant.ThreadSteps

/-!
Sequence numbers of one node under any interleaving of its threads. A number is a
ticket drawn from `next_seq_`: it is held by the thread that drew it until that
thread broadcasts it. As long as no client chunk is numbered between the unlocked
read in `propose_noop` and the critical section after it, the no-op carries the
number that its section takes.
-/
namespace BandleCxl.Invariant
open Library Source Bandle

variable {ι : Type*} {hash : Bytes → Nat} {cfg : Settings}

/-- Numbered proposals of a client thread that it has not broadcast. -/
def SubmitPc.unsent : SubmitPc → List BandleMessage
  | .broadcast _ chunk _ => chunk
  | _ => []

def NoopPc.unsent : NoopPc → List BandleMessage
  | .broadcast p => [p]
  | _ => []

def seqsOf (msgs : List BandleMessage) : List Nat := msgs.map (·.body.seq)

/-- The numbers a thread holds; `none` is the proposer thread. -/
def heldSeqs (s : NodeThreads ι) : Option ι → List Nat
  | some t => seqsOf (SubmitPc.unsent (s.client t))
  | none => seqsOf (NoopPc.unsent s.proposer)

/-- The first `count` numbers of a node. -/
def ownSeqs (nodeId count : Nat) : List Nat := (List.range count).map (nodeId + 3 * ·)

structure Numbering (cfg : Settings) (s : NodeThreads ι) : Prop where
  settings : s.node.cfg = cfg
  handedOut : seqsOf s.node.hist.numbered = ownSeqs cfg.nodeId s.node.hist.numbered.length
  next : s.node.nextSeq = cfg.nodeId + 3 * s.node.hist.numbered.length
  read : ∀ p, s.proposer = .read p → p = s.node.noopProposal
  custody : Custody s.node.nextSeq (seqsOf s.sent) (heldSeqs s)

theorem mem_ownSeqs {nodeId count q : Nat} :
    q ∈ ownSeqs nodeId count ↔ ∃ j, j < count ∧ q = nodeId + 3 * j := by
  simp only [ownSeqs, List.mem_map, List.mem_range]
  exact exists_congr fun j => and_congr_right fun _ => eq_comm

theorem nodup_ownSeqs (nodeId count : Nat) : (ownSeqs nodeId count).Nodup := by
  refine List.Nodup.map ?_ List.nodup_range
  intro i j same
  dsimp only at same
  omega

/-- Consecutive numbering continues the sequence. -/
theorem Numbers.seqsOf {n n' : Bandle} {msgs : List BandleMessage} (numbers : Numbers n n' msgs) :
    seqsOf msgs = ownSeqs n.nextSeq msgs.length := by
  refine List.ext_getElem? fun k => ?_
  simp only [Invariant.seqsOf, ownSeqs, List.getElem?_map]
  cases found : msgs[k]? with
  | none =>
    have out : msgs.length ≤ k := List.getElem?_eq_none_iff.mp found
    simp [out]
  | some m =>
    have within : k < msgs.length := (List.getElem?_eq_some_iff.mp found).1
    simp [List.getElem?_range within, numbers.seqs k m found]

theorem ownSeqs_append (nodeId first second : Nat) :
    ownSeqs nodeId first ++ ownSeqs (nodeId + 3 * first) second =
      ownSeqs nodeId (first + second) := by
  simp only [ownSeqs, List.range_add, List.map_append, List.map_map]
  congr 1
  refine List.map_congr_left fun j _ => ?_
  simp only [Function.comp_apply]
  omega

/-! ### The three things a step can do to the numbers -/

/-- The members that numbering reads and writes. -/
structure SameNumbers (n n' : Bandle) : Prop where
  cfg : n'.cfg = n.cfg
  nextSeq : n'.nextSeq = n.nextSeq
  numbered : n'.hist.numbered = n.hist.numbered

theorem ProposingSame.numbers {n n' : Bandle} (same : ProposingSame n n') : SameNumbers n n' :=
  ⟨same.cfg, same.nextSeq, same.numbered⟩

section
variable {s t : NodeThreads ι}

/-- Nothing is numbered or sent. -/
theorem Numbering.quiet (h : Numbering cfg s) (same : SameNumbers s.node t.node)
    (held : heldSeqs t = heldSeqs s) (sent : t.sent = s.sent)
    (read : ∀ p, t.proposer = .read p → p = s.node.noopProposal) : Numbering cfg t where
  settings := same.cfg.trans h.settings
  handedOut := by rw [same.numbered]; exact h.handedOut
  next := by rw [same.numbered, same.nextSeq]; exact h.next
  read p at_ := by
    rw [read p at_]
    simp only [noopProposal, same.nextSeq, same.cfg]
  custody := by rw [same.nextSeq, held, sent]; exact h.custody

/-- A thread numbers proposals while no no-op waits with the number it has read. -/
theorem Numbering.number [DecidableEq ι] (h : Numbering cfg s) (who : Option ι) {msgs : List BandleMessage}
    (numbers : Numbers s.node t.node msgs)
    (held : heldSeqs t = Function.update (heldSeqs s) who (seqsOf msgs)) (sent : t.sent = s.sent)
    (read : ∀ p, t.proposer ≠ .read p) : Numbering cfg t where
  settings := numbers.cfg.trans h.settings
  handedOut := by
    rw [numbers.numbered, List.length_append, ← ownSeqs_append, ← h.next, ← h.handedOut,
      ← numbers.seqsOf]
    exact List.map_append
  next := by
    rw [numbers.nextSeq, numbers.numbered, List.length_append, h.next]
    omega
  read p at_ := absurd at_ (read p)
  custody := by
    rw [held, sent]
    refine h.custody.draw ?_ who ?_ ?_
    · rw [numbers.nextSeq]
      omega
    · rw [numbers.seqsOf]
      exact nodup_ownSeqs _ _
    · intro k member
      rw [numbers.seqsOf] at member
      obtain ⟨j, within, eq⟩ := mem_ownSeqs.mp member
      rw [numbers.nextSeq]
      omega

/-- A thread broadcasts what it holds. -/
theorem Numbering.send [DecidableEq ι] (h : Numbering cfg s) (who : Option ι) (node : t.node = s.node)
    (held : heldSeqs t = Function.update (heldSeqs s) who [])
    (sent : seqsOf t.sent = seqsOf s.sent ++ heldSeqs s who)
    (read : ∀ p, t.proposer = .read p → s.proposer = .read p) : Numbering cfg t where
  settings := by rw [node]; exact h.settings
  handedOut := by rw [node]; exact h.handedOut
  next := by rw [node]; exact h.next
  read p at_ := by rw [node]; exact h.read p (read p at_)
  custody := by rw [node, held, sent]; exact h.custody.release who

end

/-! ### Every step -/

/-- A client chunk gets its numbers while a no-op waits with the number it has read. -/
def NumbersDuringRead (s : NodeThreads ι) : NodeAction ι → Prop
  | .admission t _ =>
    (∃ p, s.proposer = .read p) ∧
      ∃ cap chunk rest, s.client t = .admission cap chunk rest ∧ s.node.Admits chunk.length
  | _ => False

theorem numbering_initial (preload : KVStore) (now : Nat) :
    Numbering cfg (NodeThreads.initial ι cfg preload now) where
  settings := rfl
  handedOut := rfl
  next := rfl
  read p at_ := by cases at_
  custody := by
    have nobody : heldSeqs (NodeThreads.initial ι cfg preload now) = fun _ => [] := by
      funext who
      cases who <;> rfl
    rw [nobody]
    exact .nothing _

section
variable [DecidableEq ι] {s t : NodeThreads ι}

theorem heldSeqs_setClient (s : NodeThreads ι) (t : ι) (pc : SubmitPc) :
    heldSeqs (s.setClient t pc) =
      Function.update (heldSeqs s) (some t) (seqsOf (SubmitPc.unsent pc)) := by
  funext who
  cases who with
  | none => simp [heldSeqs, NodeThreads.setClient]
  | some u =>
    by_cases here : u = t
    · subst u
      simp [heldSeqs, NodeThreads.setClient]
    · simp [heldSeqs, NodeThreads.setClient, here]

/-- A client thread that moves between points where it holds no numbers. -/
theorem heldSeqs_client_idle {c : ι} {pc : SubmitPc}
    (before : SubmitPc.unsent (s.client c) = []) (after : SubmitPc.unsent pc = []) :
    heldSeqs (s.setClient c pc) = heldSeqs s := by
  rw [heldSeqs_setClient, after, ← before]
  exact Function.update_eq_self (some c) (heldSeqs s)

theorem heldSeqs_proposer (s : NodeThreads ι) (pc : NoopPc) :
    heldSeqs { s with proposer := pc } =
      Function.update (heldSeqs s) none (seqsOf (NoopPc.unsent pc)) := by
  funext who
  cases who <;> simp [heldSeqs]

theorem heldSeqs_proposer_idle {pc : NoopPc} (before : NoopPc.unsent s.proposer = [])
    (after : NoopPc.unsent pc = []) : heldSeqs { s with proposer := pc } = heldSeqs s := by
  rw [heldSeqs_proposer, after, ← before]
  exact Function.update_eq_self none (heldSeqs s)

theorem unsent_nextSubmit (cap : Nat) (rest : List BandleMessage) :
    SubmitPc.unsent (nextSubmit cap rest) = [] := by
  unfold nextSubmit
  split <;> rfl

theorem numbering_step {a : NodeAction ι} (h : Numbering cfg s) (allowed : ¬ NumbersDuringRead s a)
    (moved : Moves hash s a t) : Numbering cfg t := by
  cases moved with
  | submit pc =>
    refine h.quiet ?_ ?_ rfl h.read
    · rw [buildProposals_eq]
      exact ⟨rfl, rfl, rfl⟩
    · exact heldSeqs_client_idle (by rw [pc]; rfl) (unsent_nextSubmit _ _)
  | admission pc fits =>
    refine h.number (some _) (Numbers.chunk s.node _) (heldSeqs_setClient s _ _) rfl ?_
    intro p reading
    exact allowed ⟨⟨p, reading⟩, _, _, _, pc, fits⟩
  | retry => exact h
  | broadcast pc =>
    refine h.send (some _) rfl (heldSeqs_setClient s _ _) ?_ fun p reading => reading
    simp [seqsOf, heldSeqs, pc, SubmitPc.unsent]
  | @selfDeliver _ _ _ chunk _ pc =>
    refine h.quiet ?_ ?_ rfl h.read
    · exact ((ProposingSame.recordAll s.node chunk).trans (.advance _)).numbers
    · exact heldSeqs_client_idle (by rw [pc]; rfl) (unsent_nextSubmit _ _)
  | markInputDone => exact h.quiet ⟨rfl, rfl, rfl⟩ rfl rfl h.read
  | stop running => exact h.quiet ⟨rfl, rfl, rfl⟩ rfl rfl h.read
  | stopped => exact h
  | @handleChunk msgs tsc => exact h.quiet (ProposingSame.chunk _ msgs).numbers rfl rfl h.read
  | @handleMessage msg tsc => exact h.quiet (ProposingSame.message _ msg).numbers rfl rfl h.read
  | noopCheck pc due =>
    refine h.quiet ⟨rfl, rfl, rfl⟩ (heldSeqs_proposer_idle (by rw [pc]; rfl) rfl) rfl ?_
    intro p reading
    cases reading
  | noopIdle => exact h
  | noopRead pc =>
    refine h.quiet ⟨rfl, rfl, rfl⟩ (heldSeqs_proposer_idle (by rw [pc]; rfl) rfl) rfl ?_
    intro p reading
    exact (NoopPc.read.inj reading).symm
  | @noopNumber now p pc =>
    -- the number read outside the lock is still the next one
    obtain rfl := h.read p pc
    refine h.number none (Numbers.noop s.node now) (heldSeqs_proposer s _) rfl ?_
    intro p reading
    cases reading
  | noopBroadcast pc =>
    refine h.send none rfl (heldSeqs_proposer s _) ?_ ?_
    · simp [seqsOf, heldSeqs, pc, NoopPc.unsent]
    · intro p reading
      cases reading
  | @noopDeliver tsc p pc =>
    refine h.quiet (ProposingSame.proposal _ p true).numbers
      (heldSeqs_proposer_idle (by rw [pc]; rfl) rfl) rfl ?_
    intro p reading
    cases reading

end

end BandleCxl.Invariant
