import BandleCxl.Invariant.TraceLocks

/-!
The steps of a call, through its locks to its return. A timestamp is drawn under the lock of the
writer, so it is not below those in the file, and the line goes into the file piece by piece.
-/
namespace BandleCxl.Invariant
open Library Source

variable {T : Type*} [DecidableEq T] {b : TraceSetup} {s s' : TraceState T} {t : T}
  {pc' : TracePc} {records : Nat → List TraceRecord}

section
variable [Fintype T]

theorem succeeded_append (returned more : List (TraceOp × Bool)) :
    succeeded (returned ++ more) = succeeded returned ++ succeeded more := by
  simp [succeeded]

/-- One more at the end of one of several lists. -/
theorem flatMap_update_perm {α : Type*} (lists : Nat → List α) {n i : Nat} (inside : i < n) (x : α) :
    ((List.range n).flatMap (Function.update lists i (lists i ++ [x]))).Perm
      ((List.range n).flatMap lists ++ [x]) := by
  induction n with
  | zero => exact absurd inside (Nat.not_lt_zero i)
  | succ n ih =>
    rw [List.range_succ, List.flatMap_append, List.flatMap_append, List.flatMap_singleton,
      List.flatMap_singleton]
    rcases Nat.lt_succ_iff_lt_or_eq.mp inside with below | rfl
    · rw [Function.update_of_ne (Nat.ne_of_gt below)]
      refine ((ih below).append_right _).trans ?_
      rw [List.append_assoc, List.append_assoc]
      exact List.perm_append_comm.append_left _
    · rw [Function.update_self, ← List.append_assoc]
      have below : (List.range i).flatMap (Function.update lists i (lists i ++ [x])) =
          (List.range i).flatMap lists := by
        refine List.flatMap_congr fun j member => ?_
        rw [Function.update_of_ne (Nat.ne_of_lt (List.mem_range.mp member))]
      rw [below]

theorem written_update {node : Nat} (inRange : node < b.nodes) (r : TraceRecord) :
    (written b (Function.update records node (records node ++ [r]))).Perm
      (written b records ++ [r.op]) := by
  have mapped : (fun n => ((Function.update records node (records node ++ [r])) n).map TraceRecord.op) =
      Function.update (fun n => (records n).map TraceRecord.op) node
        ((records node).map TraceRecord.op ++ [r.op]) := by
    funext n
    rcases eq_or_ne n node with rfl | other
    · rw [Function.update_self, Function.update_self, List.map_append]
      rfl
    · rw [Function.update_of_ne other, Function.update_of_ne other]
  rw [written, mapped]
  exact flatMap_update_perm _ inRange r.op

/-- A thread whose instance stays. -/
theorem TraceInv.stays (h : TraceInv b s) (inside : (s.pc t).inside = true)
    (inside' : pc'.inside = true) :
    s.instances = (standing TracePc.inside (Function.update s.pc t pc')).card := by
  rw [standing_same (inside.trans inside'.symm)]
  exact h.locked.instances

/-- The line of a call is complete and its thread lets go of the writer. -/
theorem Filed.finish (h : Filed b s records) (locked : Locked b s) {op : TraceOp}
    {node ts count : Nat} (here : s.pc t = .writing op node ts count)
    (complete : (b.pieces op ts).length ≤ count) :
    Filed b ({ s with
      writerLocks := Function.update s.writerLocks node none
      returned := s.returned ++ [(op, true)] }.setPc t .idle)
      (Function.update records node (records node ++ [⟨op, ts⟩])) := by
  have holds : (s.pc t).node = some node := by rw [here]; rfl
  have file := h.held t node holds
  have drawn := h.stamped t node ts holds (by rw [here]; rfl)
  have line : (s.pc t).begun b = TraceRecord.text b ⟨op, ts⟩ := by
    rw [here, TracePc.begun, List.take_of_length_le complete]
    rfl
  have grown : s.files node =
      whole b s (Function.update records node (records node ++ [⟨op, ts⟩])) node := by
    rw [file, line, whole, whole, Function.update_self, List.flatMap_append, List.append_assoc]
    simp
  have others : ∀ m, m ≠ node →
      whole b s (Function.update records node (records node ++ [⟨op, ts⟩])) m = whole b s records m := by
    intro m other
    rw [whole, whole, Function.update_of_ne other]
  constructor
  · intro u m held
    simp only [TraceState.setPc] at held ⊢
    rcases eq_or_ne u t with rfl | thread
    · rw [Function.update_self] at held
      cases held
    · rw [Function.update_of_ne thread] at held ⊢
      have file_ne : m ≠ node := by
        rintro rfl
        exact thread (locked.writers.only held holds)
      exact (h.held u m held).trans (congrArg (· ++ _) (others m file_ne).symm)
  · intro m unheld
    simp only [TraceState.setPc] at unheld ⊢
    rcases eq_or_ne m node with rfl | other
    · exact grown
    · rw [Function.update_of_ne other] at unheld
      exact (h.free m unheld).trans (others m other).symm
  · intro m
    rcases eq_or_ne m node with rfl | other
    · rw [Function.update_self, List.pairwise_append]
      refine ⟨h.sorted m, List.pairwise_singleton .., ?_⟩
      intro r member r' last
      rw [List.mem_singleton.mp last]
      exact drawn.2 r member
    · rw [Function.update_of_ne other]
      exact h.sorted m
  · intro m r member
    rcases eq_or_ne m node with rfl | other
    · rw [Function.update_self] at member
      rcases List.mem_append.mp member with old | last
      · exact h.emitted m r old
      · rw [List.mem_singleton.mp last]
        exact drawn.1
    · rw [Function.update_of_ne other] at member
      exact h.emitted m r member
  · intro u m ts' held stamp
    simp only [TraceState.setPc] at held stamp ⊢
    rcases eq_or_ne u t with rfl | thread
    · rw [Function.update_self] at held
      cases held
    · rw [Function.update_of_ne thread] at held stamp
      have file_ne : m ≠ node := by
        rintro rfl
        exact thread (locked.writers.only held holds)
      rw [Function.update_of_ne file_ne]
      exact h.stamped u m ts' held stamp
  · exact h.small
  · simp only [TraceState.setPc]
    rw [succeeded_append]
    exact (written_update (locked.inRange t node holds) ⟨op, ts⟩).trans
      (h.returned.append_right [op])

/-- The next piece of a line. Nobody else has this file. -/
theorem Filed.piece (h : Filed b s records) (locked : Locked b s) {op : TraceOp}
    {node ts count : Nat} {piece : JChars} (here : s.pc t = .writing op node ts count)
    (next : (b.pieces op ts)[count]? = some piece) :
    Filed b ({ s with
      files := Function.update s.files node (s.files node ++ piece) }.setPc t
        (.writing op node ts (count + 1))) records := by
  have holds : (s.pc t).node = some node := by rw [here]; rfl
  have file := h.held t node holds
  have drawn := h.stamped t node ts holds (by rw [here]; rfl)
  have line : (TracePc.writing op node ts (count + 1)).begun b = (s.pc t).begun b ++ piece := by
    rw [here, TracePc.begun, TracePc.begun, List.take_add_one, next]
    simp
  constructor
  · intro u m held
    simp only [TraceState.setPc] at held ⊢
    rcases eq_or_ne u t with rfl | thread
    · rw [Function.update_self] at held ⊢
      obtain rfl := Option.some.inj held
      rw [Function.update_self, file, line, List.append_assoc]
      rfl
    · rw [Function.update_of_ne thread] at held ⊢
      have file_ne : m ≠ node := by
        rintro rfl
        exact thread (locked.writers.only held holds)
      rw [Function.update_of_ne file_ne]
      exact h.held u m held
  · intro m unheld
    have file_ne : m ≠ node := by
      rintro rfl
      exact locked.writers.not_held unheld t holds
    simp only [TraceState.setPc, Function.update_of_ne file_ne]
    exact h.free m unheld
  · exact h.sorted
  · exact h.emitted
  · intro u m ts' held stamp
    simp only [TraceState.setPc] at held stamp ⊢
    rcases eq_or_ne u t with rfl | thread
    · rw [Function.update_self] at held stamp
      obtain rfl := Option.some.inj held
      obtain rfl := Option.some.inj stamp
      exact drawn
    · rw [Function.update_of_ne thread] at held stamp
      exact h.stamped u m ts' held stamp
  · exact h.small
  · exact h.returned

/-- Every line of the file was there when the timestamp was drawn. -/
theorem TraceInv.draw (h : TraceInv b s) {floored : Nat}
    (stepped : s.drawStep b t floored = some s') : TraceInv b s' := by
  unfold TraceState.drawStep at stepped
  split at stepped
  · next op node here =>
    split at stepped
    · next long =>
      obtain rfl := Option.some.inj stepped
      obtain ⟨records, filed⟩ := h.filed
      have holds : (s.pc t).node = some node := by rw [here]; rfl
      have file := filed.held t node holds
      rw [here] at file
      have small := filed.small
      have stamp : s.lastEmitted ≤ (nextTimestampUs b.qpsPositive floored s.lastEmitted).2 ∧
          (nextTimestampUs b.qpsPositive floored s.lastEmitted).2 < 2 ^ 63 ∧
          (nextTimestampUs b.qpsPositive floored s.lastEmitted).1 =
            (nextTimestampUs b.qpsPositive floored s.lastEmitted).2 := by
        unfold nextTimestampUs
        split
        · exact ⟨Nat.le_refl _, small, rfl⟩
        · split
          · exact ⟨Nat.le_refl _, small, rfl⟩
          · exact ⟨by omega, long, rfl⟩
      refine ⟨h.locked.moved rfl (h.locked.writers.same holds) (h.locked.stamps.same ?_) ?_ ?_
        h.locked.running, records, filed.moved rfl rfl rfl stamp.1 stamp.2.1 ?_ filed.free ?_ rfl⟩
      · rw [Function.comp_apply, here]
        rfl
      · exact fun m same => h.locked.inRange t m (holds.trans same)
      · exact h.stays (by rw [here]; rfl) rfl
      · intro m same
        obtain rfl := Option.some.inj same
        exact file
      · intro m ts same drawn
        obtain rfl := Option.some.inj same
        obtain rfl := Option.some.inj drawn
        rw [stamp.2.2]
        exact ⟨Nat.le_refl _, fun r member => Nat.le_trans (filed.emitted node r member) stamp.1⟩
    · cases stepped
  · cases stepped

theorem TraceInv.advance (h : TraceInv b s) (stepped : s.advanceStep b t = some s') :
    TraceInv b s' := by
  unfold TraceState.advanceStep at stepped
  obtain ⟨records, filed⟩ := h.filed
  split at stepped
  · next op here =>
    have free : (s.pc t).node = none ∧ (s.pc t).stamping = none := by rw [here]; exact ⟨rfl, rfl⟩
    split at stepped <;> obtain rfl := Option.some.inj stepped <;>
      exact h.quiet rfl free ⟨rfl, rfl⟩ ⟨rfl, rfl⟩ ⟨rfl, rfl, rfl⟩
        (h.stays (by rw [here]; rfl) rfl) h.locked.running rfl
  · next op here =>
    obtain rfl := Option.some.inj stepped
    exact h.quiet rfl (by rw [here]; exact ⟨rfl, rfl⟩) ⟨rfl, rfl⟩ ⟨rfl, rfl⟩ ⟨rfl, rfl, rfl⟩
      (h.stays (by rw [here]; rfl) rfl) h.locked.running rfl
  · next op node here =>
    have none_held : (s.pc t).node = none ∧ (s.pc t).stamping = none := by
      rw [here]
      exact ⟨rfl, rfl⟩
    split at stepped
    · obtain rfl := Option.some.inj stepped
      refine h.quiet rfl none_held ⟨rfl, rfl⟩ ⟨rfl, rfl⟩ ⟨rfl, rfl, rfl⟩
        (h.stays (by rw [here]; rfl) rfl) h.locked.running ?_
      exact (succeeded_append _ _).trans (List.append_nil _)
    · next valid =>
      split at stepped
      · cases stepped
      · next unlocked =>
        have free := Option.not_isSome_iff_eq_none.mp unlocked
        obtain rfl := Option.some.inj stepped
        refine ⟨h.locked.moved rfl (h.locked.writers.take free none_held.1)
          (h.locked.stamps.same none_held.2) ?_ (h.stays (by rw [here]; rfl) rfl) h.locked.running,
          records, filed.moved rfl rfl rfl (Nat.le_refl _) filed.small ?_ ?_
            (by simp [TracePc.stamp]) rfl⟩
        · intro m same
          obtain rfl := Option.some.inj same
          omega
        · intro m same
          obtain rfl := Option.some.inj same
          exact (filed.free _ free).trans (List.append_nil _).symm
        · intro m unheld
          rcases eq_or_ne m node.toNat with rfl | other
          · exact filed.free _ free
          · simp only [TraceState.setPc, Function.update_of_ne other] at unheld
            exact filed.free m unheld
  · next op node here =>
    have holds : (s.pc t).node = some node := by rw [here]; rfl
    have file := filed.held t node holds
    rw [here] at file
    split at stepped
    · cases stepped
    · next unlocked =>
      have free := Option.not_isSome_iff_eq_none.mp unlocked
      obtain rfl := Option.some.inj stepped
      refine ⟨h.locked.moved rfl (h.locked.writers.same holds) ?_ ?_
        (h.stays (by rw [here]; rfl) rfl) h.locked.running,
        records, filed.moved rfl rfl rfl (Nat.le_refl _) filed.small ?_ filed.free
          (by simp [TracePc.stamp]) rfl⟩
      · have taken := h.locked.stamps.take (m := ()) (t := t) free (by
          rw [Function.comp_apply, here]
          rfl)
        rwa [Function.update_eq_const_of_subsingleton] at taken
      · exact fun m same => h.locked.inRange t m (holds.trans same)
      · intro m same
        obtain rfl := Option.some.inj same
        exact file
  · next op node ts here =>
    have holds : (s.pc t).node = some node := by rw [here]; rfl
    have file := filed.held t node holds
    have drawn := filed.stamped t node ts holds (by rw [here]; rfl)
    rw [here] at file
    obtain rfl := Option.some.inj stepped
    refine ⟨h.locked.moved rfl (h.locked.writers.same holds) ?_ ?_
      (h.stays (by rw [here]; rfl) rfl) h.locked.running,
      records, filed.moved rfl rfl rfl (Nat.le_refl _) filed.small ?_ filed.free ?_ rfl⟩
    · have given := h.locked.stamps.give (m := ()) (t := t) (by
        rw [Function.comp_apply, here]
        rfl)
      rwa [Function.update_eq_const_of_subsingleton] at given
    · exact fun m same => h.locked.inRange t m (holds.trans same)
    · intro m same
      obtain rfl := Option.some.inj same
      exact file
    · intro m ts' same stamp
      obtain rfl := Option.some.inj same
      obtain rfl := Option.some.inj stamp
      exact drawn
  · next op node ts count here =>
    have holds : (s.pc t).node = some node := by rw [here]; rfl
    have unstamped : (s.pc t).stamping = none := by rw [here]; rfl
    split at stepped
    · next piece next =>
      obtain rfl := Option.some.inj stepped
      exact ⟨h.locked.moved rfl (h.locked.writers.same holds) (h.locked.stamps.same unstamped)
        (fun m same => h.locked.inRange t m (holds.trans same)) (h.stays (by rw [here]; rfl) rfl)
        h.locked.running, records, filed.piece h.locked here next⟩
    · next complete =>
      obtain rfl := Option.some.inj stepped
      exact ⟨h.locked.moved rfl (h.locked.writers.give holds) (h.locked.stamps.same unstamped)
        (by simp [TracePc.node]) (h.stays (by rw [here]; rfl) rfl) h.locked.running,
        _, filed.finish h.locked here (List.getElem?_eq_none_iff.mp complete)⟩
  · cases stepped

theorem TraceInv.step (h : TraceInv b s) {a : TraceAction T} (stepped : s.step b a = some s') :
    TraceInv b s' := by
  cases a with
  | init t => exact h.init stepped
  | cleanup t => exact h.cleanup stepped
  | begin t call => exact h.begin stepped
  | advance t => exact h.advance stepped
  | draw t floored => exact h.draw stepped

theorem traceInv_of_reachable (reached : (traceThreads T b).Reachable s) : TraceInv b s := by
  refine reached.invariant ?_ fun s a s' _ h stepped => h.step stepped
  rintro s ⟨closed, instances, -, -, -, last, stamps, writers, outside, opened, -, returned⟩
  have empty : standing TracePc.inside s.pc = ∅ := by
    simp [standing, outside, TracePc.inside]
  refine ⟨⟨?_, ?_, ?_, ?_, ?_⟩, fun _ => [], Filed.opened ⟨rfl, opened⟩ ⟨last, returned⟩ ?_⟩
  · intro m u
    simp [writers, outside, TracePc.node]
  · intro m u
    simp [stamps, outside, TracePc.stamping]
  · intro u m holds
    simp [outside, TracePc.node] at holds
  · rw [instances, empty, Finset.card_empty]
  · simp [closed, instances]
  · intro u
    rw [outside]
    rfl

end

end BandleCxl.Invariant
