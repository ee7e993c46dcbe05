import BandleCxl.Invariant.Numbering
import BandleCxl.Source.Cluster

/-!
A node's sequence numbers when any number of client threads submit at any time.
Client chunks take their numbers inside `mu_`; `propose_noop` reads `next_seq_`
before it locks and increments it afterwards. A client chunk numbered in between
gets the number the no-op already carries, and the section of the no-op then skips
one. Every other interleaving hands out each number once and none is missing.
-/
namespace BandleCxl.Guarantees
open Library Source Bandle Invariant

variable {ι : Type*}

/-- Broadcast proposals carry different numbers, no number was handed out twice, and
the numbers handed out below `next_seq_` are `node_id`, `node_id + 3`, and so on. -/
structure NumberedOnce (s : NodeThreads ι) : Prop where
  broadcasts : (seqsOf s.sent).Nodup
  handedOut : (seqsOf s.node.hist.numbered).Nodup
  noGap : ∀ q, q < s.node.nextSeq →
    (q ∈ seqsOf s.node.hist.numbered ↔ ∃ j, q = s.node.cfg.nodeId + 3 * j)

theorem numberedOnce_of_numbering {cfg : Settings} {s : NodeThreads ι} (h : Numbering cfg s) :
    NumberedOnce s where
  broadcasts := h.custody.released_nodup
  handedOut := by
    rw [h.handedOut]
    exact nodup_ownSeqs _ _
  noGap q below := by
    rw [h.next] at below
    rw [h.handedOut, h.settings, mem_ownSeqs]
    constructor
    · rintro ⟨j, -, eq⟩
      exact ⟨j, eq⟩
    · rintro ⟨j, eq⟩
      exact ⟨j, by omega, eq⟩

/-- In every run in which no client chunk is numbered between the two halves of
`propose_noop`, each number is handed out once, without a gap. -/
theorem numbers_never_reused [DecidableEq ι] (hash : Bytes → Nat) (cfg : Settings)
    (preload : KVStore) (now : Nat) (s : NodeThreads ι)
    (reached : (nodeSystem ι hash cfg preload now).ReachableUnder
      (fun s a => ¬ NumbersDuringRead s a) s) : NumberedOnce s := by
  have numbering : Numbering cfg s := by
    refine TransitionSystem.ReachableUnder.invariant ?_ ?_ reached
    · intro s start
      cases start
      exact numbering_initial preload now
    · intro s a t _ h allowed stepped
      exact numbering_step h allowed (moves_of_step stepped)
  exact numberedOnce_of_numbering numbering

/-- One such interleaving is enough: once the no-op is numbered, its number has been
handed out twice. -/
theorem reused_of_numbersDuringRead [DecidableEq ι] {hash : Bytes → Nat} {cfg : Settings}
    {s t u : NodeThreads ι} {c : ι} {cap now : Nat} {first p : BandleMessage}
    {chunk rest : List BandleMessage} {tsc : Nat → Nat} (h : Numbering cfg s)
    (reading : s.proposer = .read p) (client : s.client c = .admission cap (first :: chunk) rest)
    (fits : s.node.Admits (first :: chunk).length)
    (admitted : s.step hash (.admission c tsc) = some t)
    (noop : t.step hash (.noopNumber now) = some u) : ¬ NumberedOnce u := by
  simp only [NodeThreads.step, NodeThreads.admissionStep, client, if_pos fits] at admitted
  obtain rfl := Option.some.inj admitted
  simp only [NodeThreads.step, NodeThreads.noopNumberStep, NodeThreads.setClient, reading] at noop
  obtain rfl := Option.some.inj noop
  intro once
  have numbers : Numbers s.node (numberChunk tsc s.node (first :: chunk)).1
    (numberChunk tsc s.node (first :: chunk)).2 := .chunk s.node (first :: chunk)
  have head : s.node.nextSeq ∈ seqsOf (numberChunk tsc s.node (first :: chunk)).2 := by
    rw [numbers.seqsOf, mem_ownSeqs]
    exact ⟨0, by simp [numberChunk], rfl⟩
  have same : p.body.seq = s.node.nextSeq := by
    rw [h.read p reading]
    rfl
  have twice := once.handedOut
  simp only [numberNoop, numbers.numbered, seqsOf, List.map_append, List.map_cons, List.map_nil,
    same] at twice
  rw [List.nodup_append] at twice
  exact twice.2.2 _ (List.mem_append_right _ head) _ (List.mem_singleton_self _) rfl

/-- Two client threads and a no-op; the chunks are numbered before and after its two halves. -/
theorem numbers_never_reused_two_threads :
    ∃ s, (nodeSystem Bool List.length (defaultSettings 0) .empty 0).run
        (NodeThreads.initial Bool (defaultSettings 0) .empty 0)
        [.submit true [.ofBytes opP [1] [2]] fun _ _ => 0,
          .submit false [.ofBytes opD [1] []] fun _ _ => 0, .markInputDone,
          .noopCheck false 100000, .admission false fun _ => 0, .noopRead, .noopNumber 100000,
          .noopBroadcast, .admission true fun _ => 0, .broadcast true, .broadcast false] = some s ∧
      seqsOf s.sent = [4, 7, 1] ∧ NumberedOnce s := by
  refine ⟨_, rfl, rfl, ?_⟩
  refine numbers_never_reused List.length (defaultSettings 0) .empty 0 _ ?_
  -- only an admission can break the condition, and the proposer is not in `read` at either
  have before : (nodeSystem Bool List.length (defaultSettings 0) .empty 0).ReachableUnder
      (fun s a => ¬ NumbersDuringRead s a) _ := .of_run
    [.submit true [.ofBytes opP [1] [2]] fun _ _ => 0,
      .submit false [.ofBytes opD [1] []] fun _ _ => 0, .markInputDone, .noopCheck false 100000]
    (.start rfl) (by simp [NumbersDuringRead]) rfl
  have first := before.next (.admission false fun _ => 0)
    (by rintro ⟨⟨p, reading⟩, -⟩; cases reading) rfl
  have noop := first.of_run [.noopRead, .noopNumber 100000, .noopBroadcast]
    (by simp [NumbersDuringRead]) rfl
  have second := noop.next (.admission true fun _ => 0)
    (by rintro ⟨⟨p, reading⟩, -⟩; cases reading) rfl
  exact second.of_run [.broadcast true, .broadcast false] (by simp [NumbersDuringRead]) rfl

/-- A client submits after `mark_input_done` and its chunk is numbered while the no-op
waits: both proposals are broadcast with number 1 and nobody ever gets number 4. -/
theorem number_reused_and_skipped :
    ∃ s, (nodeSystem Unit List.length (defaultSettings 0) .empty 0).run
        (NodeThreads.initial Unit (defaultSettings 0) .empty 0)
        [.markInputDone, .noopCheck false 100000, .noopRead,
          .submit () [.ofBytes opP [1] [2]] fun _ _ => 0, .admission () fun _ => 0,
          .noopNumber 100000, .broadcast (), .noopBroadcast] = some s ∧
      s.node.running = true ∧ seqsOf s.sent = [1, 1] ∧ s.node.nextSeq = 7 ∧
      4 ∉ seqsOf s.node.hist.numbered ∧ ¬ NumberedOnce s := by
  refine ⟨_, rfl, rfl, rfl, rfl, by decide, ?_⟩
  intro once
  exact absurd once.broadcasts (by decide)

end BandleCxl.Guarantees
