import BandleCxl.Guarantees.RingFifo
import BandleCxl.Invariant.BroadcastSteps
import BandleCxl.Invariant.Node

/-!
`broadcast` and `broadcast_batch` as an ordered broadcast: whatever the threads of a node send
at the same time, both peers are sent the same calls in the same order, each as a whole.
-/
namespace BandleCxl.Guarantees
open Library Source Invariant

variable {ι : Type*} [DecidableEq ι]

theorem loggedBy_append (first second : List (ι × List BandleMessage)) (t : ι) :
    loggedBy (first ++ second) t = loggedBy first t ++ loggedBy second t := by
  rw [loggedBy, List.filter_append, List.map_append]
  rfl

theorem loggedBy_filter (calls : List (ι × List BandleMessage)) (t : ι) :
    loggedBy (calls.filter (Fits ·.2)) t = (loggedBy calls t).filter Fits := by
  simp only [loggedBy, List.filter_map, List.filter_filter, Function.comp_def, Bool.and_comm]

section
variable {r : RingShape} {i : NodeId} {s : SendSide ι}

/-- The calls that took the mutex are the first ones their threads made. -/
theorem locked_first (h : SendInv r i s) (t : ι) : loggedBy s.locked t <+: s.calls t :=
  ⟨_, (h.calls t).symm⟩

theorem log_eq_locked (h : SendInv r i s) (runs : s.running = true) (free : s.owner = none) :
    s.log = s.locked.filter (Fits ·.2) := by
  rw [← (h.free_turns free).complete runs]
  exact (List.filter_eq_self.mpr h.fits).symm

/-- A thread that is outside takes no turn. -/
theorem loggedBy_held (h : SendInv r i s) {t : ι}
    (outside : s.pc t = .outside) : loggedBy (held (peersOf i) s) t = [] := by
  unfold held
  cases owner : s.owner with
  | none => rfl
  | some u =>
    have other : u ≠ t := by
      rintro rfl
      have inside := (h.inside u).mpr owner
      rw [outside] at inside
      exact inside
    simp [loggedBy, List.filter_map, Function.comp_def, other]

end

/-- In every reachable state, with any number of threads and readers at any place: the calls
that have published something form one log. Each peer's ring has been given the whole log or
all but its last call, call after call, and all of it when nobody is sending and `running_` is
set; from a coherent ring the peer reads it in that order. The log has the calls in the order in
which they took `send_mu_`, which is for each thread the order it made them in. When nobody is
sending and `running_` is set, it misses of them just those with a message that is too long for
a slot. -/
theorem ordered_broadcast (r : RingShape) (i : NodeId) (s : SendSide ι)
    (reached : (sendSystem ι r i).Reachable s) :
    (∀ p ∈ peersOf i, ∃ k ≤ s.log.length, s.log.length ≤ k + 1 ∧
      (s.ring p).hist.published = ((s.log.take k).map Prod.snd).flatten ∧
      (s.running = true → s.owner = none → k = s.log.length)) ∧
    (r.coherent = true → ∀ p, ∃ sent rest, (s.ring p).hist.published = sent ++ rest ∧
      List.Forall₂ SameMessage sent (s.ring p).hist.committed) ∧
    s.log.Sublist s.locked ∧ (∀ t, loggedBy s.locked t <+: s.calls t) ∧
    (s.running = true → s.owner = none → s.log = s.locked.filter (Fits ·.2)) ∧
    (∀ t, (loggedBy s.log t).Sublist (s.calls t)) ∧
    (s.running = true → ∀ t, s.pc t = .outside → loggedBy s.log t = (s.calls t).filter Fits) := by
  have h := send_reachable reached
  have order : s.log.Sublist s.locked := (List.sublist_append_left _ _).trans h.turns.order
  refine ⟨fun p member => ?_, fun coherent p => ?_, order, locked_first h, log_eq_locked h,
    fun t => ?_, fun runs t outside => ?_⟩
  · by_cases quiet : s.running = true ∧ s.owner = none
    · have streams := h.streams
      simp only [holderPc, quiet.2] at streams
      refine ⟨s.log.length, Nat.le_refl _, Nat.le_succ _, ?_, fun _ _ => rfl⟩
      rw [List.take_length]
      exact streams quiet.1 p member
    · obtain ⟨k, le, near, eq⟩ := (h.along p member).exists_take
      rw [List.length_map] at le near
      rw [← List.map_take] at eq
      exact ⟨k, le, near, eq, fun runs free => absurd ⟨runs, free⟩ quiet⟩
  · have inv := ring_reachable ((h.rings p).under fun _ _ _ _ _ => Or.inl coherent)
    exact ⟨_, _, (List.take_append_drop (s.ring p).hist.committed.length _).symm,
      forall₂_of_getElem? inv.delivered⟩
  · exact ((order.filter _).map _).trans (locked_first h t).sublist
  · have calls : s.calls t = loggedBy s.locked t := by
      have made := h.calls t
      rw [outside] at made
      exact made.trans (List.append_nil _)
    have all : loggedBy (s.log ++ held (peersOf i) s) t = loggedBy s.log t := by
      rw [loggedBy_append, loggedBy_held h outside, List.append_nil]
    have fit : s.log.filter (Fits ·.2) = s.log := List.filter_eq_self.mpr h.fits
    rw [calls, ← loggedBy_filter, ← h.turns.complete runs, loggedBy_filter, all, ← loggedBy_filter,
      fit]

/-- Thread `t` sends one message to both peers. -/
def sendOne (t : Bool) : List (SendAction Bool) :=
  [.call t (.broadcast oneByteKey), .lock t, .loadRunning t, .access t 0, .access t 0, .access t 0,
    .access t 0, .access t 0, .access t 0, .loadRunning t, .access t 0, .access t 0, .access t 0,
    .access t 0, .access t 0, .access t 0, .loadRunning t, .unlock t]

def freshSide : SendSide Bool where
  running := true
  owner := none
  pc _ := .outside
  ring _ := freshRing
  log := []
  locked := []
  calls _ := []

theorem freshSide_start (r : RingShape) (i : NodeId) : (sendSystem Bool r i).init freshSide :=
  ⟨fun _ => freshRing, fun _ => freshRing_start r, rfl⟩

theorem ordered_broadcast_sendOne :
    ∃ s, (sendSystem Bool (bandleRing true) 0).run freshSide (sendOne true ++ sendOne false) =
        some s ∧
      s.log.length = 2 ∧ (s.ring 1).hist.published.length = 2 ∧
      loggedBy s.log true = (s.calls true).filter Fits := by
  refine ⟨_, rfl, rfl, rfl, ?_⟩
  have ordered := ordered_broadcast (bandleRing true) 0 _
    (.of_run (sendOne true ++ sendOne false) (.start (freshSide_start _ _)) rfl)
  exact ordered.2.2.2.2.2.2 rfl true rfl

/-! ### What a node sends is never too long -/

theorem fits_of_wellFormed {proposer : Nat} {msgs : List BandleMessage}
    (wf : ∀ msg ∈ msgs, WellFormed proposer msg) : Fits msgs = true := by
  rw [Fits, List.all_eq_true]
  intro msg member
  have fits := (wf msg member).fits
  simpa [BandlePayload.bytes] using fits

/-- A chunk of `submit_borrowed_batch` with its numbers, taken later. -/
theorem fits_chunk {n n' : Bandle} (same : n'.cfg = n.cfg) (bufs : Nat → Mem)
    (reqs : List BorrowedRequest) (tsc : Nat → Nat) {chunk : List BandleMessage}
    (part : ∀ msg ∈ chunk, msg ∈ (Bandle.buildProposals bufs reqs (n, [])).2) :
    Fits (Bandle.numberChunk tsc n' chunk).2 = true := by
  have wf : ∀ msg ∈ chunk, WellFormed n'.cfg.nodeId msg := by
    intro msg member
    have built := part msg member
    rw [buildProposals_eq, List.nil_append] at built
    rw [same]
    exact WellFormed.proposalsOf n.cfg.nodeId bufs _ reqs msg built
  exact fits_of_wellFormed (WellFormed.numberChunk n' wf)

theorem fits_noop (n : Bandle) : Fits [n.noopProposal] = true :=
  fits_of_wellFormed (List.forall_mem_singleton.mpr (WellFormed.noop n))

/-- What `submit_borrowed_batch` and `propose_noop` send. -/
inductive FromReplica : List BandleMessage → Prop where
  | chunk {n n' : Bandle} (same : n'.cfg = n.cfg) (bufs : Nat → Mem) (reqs : List BorrowedRequest)
      (tsc : Nat → Nat) (chunk : List BandleMessage)
      (part : ∀ msg ∈ chunk, msg ∈ (Bandle.buildProposals bufs reqs (n, [])).2) :
      FromReplica (Bandle.numberChunk tsc n' chunk).2
  | noop (n : Bandle) : FromReplica [n.noopProposal]

theorem FromReplica.fits {msgs : List BandleMessage} (h : FromReplica msgs) : Fits msgs = true := by
  cases h with
  | chunk same bufs reqs tsc chunk part => exact fits_chunk same bufs reqs tsc part
  | noop n => exact fits_noop n

/-- When the threads send only this, every call that took the mutex is in the log as soon as
the mutex is free, until `running_` is cleared. -/
theorem replica_broadcast_complete {r : RingShape} {i : NodeId} {s : SendSide ι}
    (reached : (sendSystem ι r i).Reachable s) (sends : ∀ t, ∀ msgs ∈ s.calls t, FromReplica msgs)
    (runs : s.running = true) (free : s.owner = none) : s.log = s.locked := by
  have h := send_reachable reached
  rw [log_eq_locked h runs free]
  refine List.filter_eq_self.mpr fun call member => ?_
  have own : call.2 ∈ loggedBy s.locked call.1 :=
    List.mem_map.mpr ⟨call, List.mem_filter.mpr ⟨member, by simp⟩, rfl⟩
  exact (sends call.1 call.2 ((locked_first h call.1).subset own)).fits

end BandleCxl.Guarantees
