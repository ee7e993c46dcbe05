import BandleCxl.Invariant.Handling
import BandleCxl.Invariant.Node
import BandleCxl.Invariant.ThreadSteps
import BandleCxl.Source.Cluster

/-!
What holds whenever `mu_` is released. Execution is triggered from several places
with different conditions, and messages of any kind arrive in any order; still no
section leaves an executable entry at `execute_next_`, and a section that brings
`pending_count_` down to zero has notified the waiters.
-/
namespace BandleCxl.Guarantees
open Library Source Bandle Invariant

variable {hash : Bytes → Nat} {tsc : Nat → Nat}

/-! ### Notification -/

/-- From `n` to `n'` no notification is lost, and emptying the open requests notifies. -/
structure Wakes (n n' : Bandle) : Prop where
  le : n.hist.notified ≤ n'.hist.notified
  emptied : 0 < n.acct.pendingCount → n'.acct.pendingCount = 0 →
    n.hist.notified < n'.hist.notified

theorem Wakes.of_le {n n' : Bandle} (notified : n.hist.notified ≤ n'.hist.notified)
    (pending : n.acct.pendingCount ≤ n'.acct.pendingCount) : Wakes n n' :=
  ⟨notified, fun some none => by omega⟩

theorem Wakes.refl (n : Bandle) : Wakes n n := .of_le (Nat.le_refl _) (Nat.le_refl _)

theorem Wakes.trans {a b c : Bandle} (first : Wakes a b) (second : Wakes b c) : Wakes a c := by
  refine ⟨Nat.le_trans first.le second.le, ?_⟩
  intro some none
  rcases Nat.eq_zero_or_pos b.acct.pendingCount with empty | left
  · exact Nat.lt_of_lt_of_le (first.emptied some empty) second.le
  · exact Nat.lt_of_le_of_lt first.le (second.emptied left none)

/-- `notify_waiter` stays set, and is set when the open requests run out. -/
structure Flags (count : Nat) (flag : Bool) (count' : Nat) (flag' : Bool) : Prop where
  kept : flag = true → flag' = true
  emptied : 0 < count → count' = 0 → flag' = true

theorem Flags.trans {count count' count'' : Nat} {flag flag' flag'' : Bool}
    (first : Flags count flag count' flag') (second : Flags count' flag' count'' flag'') :
    Flags count flag count'' flag'' := by
  refine ⟨fun set => second.kept (first.kept set), ?_⟩
  intro some none
  rcases Nat.eq_zero_or_pos count' with empty | left
  · exact second.kept (first.emptied some empty)
  · exact second.emptied left none

theorem Flags.same (count : Nat) (flag : Bool) : Flags count flag count flag :=
  ⟨id, fun some none => by omega⟩

theorem Flags.countDown (count : Nat) (flag : Bool) :
    Flags count flag (count - 1) (flag || count - 1 == 0) :=
  ⟨fun set => by simp [set], fun _ none => by simp [none]⟩

theorem completePending_flags (endTsc : Nat) (e : LogEntry) (st : Accounting × Bool) :
    Flags st.1.pendingCount st.2 (completePending endTsc e st).1.pendingCount
      (completePending endTsc e st).2 := by
  unfold completePending
  dsimp only
  split
  · -- both kinds of request count down in the same way
    by_cases read : (st.1.pending (slotOf (e.clientReqId &&& (2 ^ 56 - 1)))).op = opG
    · simp only [if_pos read]
      split
      · exact .countDown _ _
      · exact .same _ _
    · simp only [if_neg read]
      split
      · exact .countDown _ _
      · exact .same _ _
  · exact .same _ _

theorem executeEntry_flags (st : Bandle × Bool) :
    Flags st.1.acct.pendingCount st.2 (executeEntry hash tsc st).1.acct.pendingCount
      (executeEntry hash tsc st).2 := by
  simp only [executeEntry, completeEntry, completeOwn]
  split
  · exact completePending_flags _ _ (st.1.acct, st.2)
  · exact .same _ _

theorem run_flags {st st' : Bandle × Bool} (run : ExecRun hash tsc st st') :
    st'.1.hist.notified = st.1.hist.notified ∧
      Flags st.1.acct.pendingCount st.2 st'.1.acct.pendingCount st'.2 := by
  induction run with
  | refl st => exact ⟨rfl, .same _ _⟩
  | step ready rest ih => exact ⟨ih.1, (executeEntry_flags _).trans ih.2⟩

theorem Wakes.advance (n : Bandle) : Wakes n (n.advanceExecuteLocked hash tsc) := by
  obtain ⟨out, run, -, eq⟩ := advance_spec hash tsc n
  obtain ⟨same, flags⟩ := run_flags run
  rw [eq]
  refine ⟨?_, ?_⟩
  · dsimp only at same ⊢
    omega
  · intro some none
    have set : out.2 = true := flags.emptied some none
    simp only [set, if_true]
    dsimp only at same
    omega

theorem wakes_handlers (hash : Bytes → Nat) (tsc : Nat → Nat) (n : Bandle) :
    HandlerRule hash tsc (fun _ => True) (Wakes n) where
  write m msg _ h := h.trans (.of_le (by simp) (by simp))
  frame m hist same h := h.trans (.of_le (Nat.le_of_eq same.2.symm) (Nat.le_refl _))
  advance m h := h.trans (.advance m)

theorem Wakes.record (n : Bandle) (m : BandleMessage) : Wakes n (n.recordProposal m) :=
  .of_le (Nat.le_refl _) (Nat.le_refl _)

theorem Wakes.recordAll (n : Bandle) (msgs : List BandleMessage) :
    Wakes n (Invariant.recordAll n msgs) := by
  induction msgs generalizing n with
  | nil => exact .refl n
  | cons m rest ih => exact (Wakes.record n m).trans (ih _)

/-! ### Sections -/

def Drained (n : Bandle) : Prop := ¬ n.Executable n.executeNext

/-- What one section owes: nothing ready afterwards if nothing was before, and the
notification. -/
structure Releases (n n' : Bandle) : Prop where
  drained : Drained n → Drained n'
  wakes : Wakes n n'

/-- A section that leaves the log alone and closes no request. -/
theorem Releases.quiet {n n' : Bandle} (log : n'.log = n.log)
    (next : n'.executeNext = n.executeNext) (notified : n.hist.notified ≤ n'.hist.notified)
    (pending : n.acct.pendingCount ≤ n'.acct.pendingCount) : Releases n n' := by
  refine ⟨?_, .of_le notified pending⟩
  unfold Drained
  rw [next, executable_congr (congrFun log _)]
  exact id

theorem Releases.refl (n : Bandle) : Releases n n :=
  .quiet rfl rfl (Nat.le_refl _) (Nat.le_refl _)

theorem Releases.trans {a b c : Bandle} (first : Releases a b) (second : Releases b c) :
    Releases a c :=
  ⟨fun start => second.drained (first.drained start), first.wakes.trans second.wakes⟩

theorem Releases.numberChunk (n : Bandle) (chunk : List BandleMessage) :
    Releases n (numberChunk tsc n chunk).1 := by
  induction chunk generalizing n with
  | nil => exact .refl n
  | cons p rest ih =>
    have first : Releases n (numberProposal tsc n p).1 :=
      .quiet rfl rfl (Nat.le_refl _) (Nat.le_succ _)
    exact first.trans (ih _)

theorem Releases.buildProposals (n : Bandle) (bufs : Nat → Mem) (reqs : List BorrowedRequest) :
    Releases n (buildProposals bufs reqs (n, [])).1 := by
  rw [buildProposals_eq]
  exact .quiet rfl rfl (Nat.le_refl _) (Nat.le_refl _)

/-- A section that ends with `advance_execute_locked`. -/
theorem Releases.advance {n n' : Bandle} (wakes : Wakes n n') :
    Releases n (n'.advanceExecuteLocked hash tsc) :=
  ⟨fun _ => advance_drained n', wakes.trans (.advance n')⟩

theorem Releases.chunk (n : Bandle) (msgs : List BandleMessage) :
    Releases n (n.handleChunk hash tsc msgs) :=
  ⟨drained_handleChunk msgs,
    (wakes_handlers hash tsc n).chunk (fun _ _ => trivial) (.refl n)⟩

theorem Releases.message (n : Bandle) (m : BandleMessage) :
    Releases n (n.handleMessage hash tsc m) :=
  ⟨drained_handleMessage m, (wakes_handlers hash tsc n).message trivial (.refl n)⟩

variable {ι : Type*} [DecidableEq ι]

theorem releases_step {s t : NodeThreads ι} {a : NodeAction ι} (moved : Moves hash s a t) :
    Releases s.node t.node := by
  cases moved with
  | @submit c reqs bufs pc => exact .buildProposals s.node bufs reqs
  | admission pc fits => exact .numberChunk s.node _
  | @selfDeliver _ _ _ chunk _ pc => exact .advance (.recordAll s.node chunk)
  | markInputDone => exact .quiet rfl rfl (Nat.le_refl _) (Nat.le_refl _)
  | stop running => exact .quiet rfl rfl (Nat.le_succ _) (Nat.le_refl _)
  | @handleChunk msgs tsc => exact .chunk s.node msgs
  | @handleMessage msg tsc => exact .message s.node msg
  | @noopNumber now p pc => exact .quiet rfl rfl (Nat.le_refl _) (Nat.le_refl _)
  | @noopDeliver tsc p pc => exact .advance (.record s.node p)
  | retry | stopped | noopIdle => exact .refl _
  | broadcast pc | noopRead pc | noopBroadcast pc => exact .refl _
  | noopCheck pc due => exact .refl _

theorem drained_reachable {cfg : Settings} {preload : KVStore} {now : Nat} {s : NodeThreads ι}
    (reached : (nodeSystem ι hash cfg preload now).Reachable s) : Drained s.node := by
  refine TransitionSystem.Reachable.invariant (P := fun s => Drained s.node) ?_ ?_ reached
  · intro s start
    cases start
    rintro ⟨seq, -⟩
    cases seq
  · intro s a t _ drained stepped
    exact (releases_step (moves_of_step stepped)).drained drained

/-- From any reachable state, whatever section runs next: when it releases `mu_`, no
executable entry stands at `execute_next_`, and if it has brought the open requests
from some to none, it has notified. -/
theorem nothing_left_behind (hash : Bytes → Nat) (cfg : Settings) (preload : KVStore) (now : Nat)
    (s t : NodeThreads ι) (a : NodeAction ι)
    (reached : (nodeSystem ι hash cfg preload now).Reachable s)
    (stepped : s.step hash a = some t) :
    ¬ t.node.Executable t.node.executeNext ∧
      (0 < s.node.acct.pendingCount → t.node.acct.pendingCount = 0 →
        s.node.hist.notified < t.node.hist.notified) :=
  have release := releases_step (moves_of_step stepped)
  ⟨release.drained (drained_reachable reached), release.wakes.emptied⟩

/-- Node 1's only request is open until its self-delivery, which notifies. -/
theorem nothing_left_behind_self_delivery :
    ∃ s t : NodeThreads Unit,
      (nodeSystem Unit List.length (defaultSettings 0) .empty 0).run
        (NodeThreads.initial Unit (defaultSettings 0) .empty 0)
        [.submit () [.ofBytes opP [1] [2]] fun _ _ => 0, .admission () fun _ => 0,
          .broadcast ()] = some s ∧
      s.step List.length (.selfDeliver () fun _ => 0) = some t ∧
      s.node.acct.pendingCount = 1 ∧ t.node.acct.pendingCount = 0 ∧ t.node.executeNext = 2 ∧
      ¬ t.node.Executable t.node.executeNext ∧
      s.node.hist.notified < t.node.hist.notified := by
  refine ⟨_, _, rfl, rfl, rfl, rfl, rfl, ?_⟩
  have release := nothing_left_behind List.length (defaultSettings 0) .empty 0 _ _
    (.selfDeliver () fun _ => 0)
    (.of_run [.submit () [.ofBytes opP [1] [2]] fun _ _ => 0, .admission () fun _ => 0,
      .broadcast ()] (.start rfl) rfl) rfl
  exact ⟨release.1, release.2 (by decide) rfl⟩

end BandleCxl.Guarantees
