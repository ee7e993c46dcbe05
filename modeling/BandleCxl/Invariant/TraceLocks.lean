import BandleCxl.Library.Ownership
import BandleCxl.Source.TraceThreads

/-!
What holds while threads write the node files. Writer locks and `TS_LOCK` are held where the
threads stand inside their blocks, and a file is the whole lines of the calls that are through,
followed by what the holder of its writer has written of the next one. The steps here are those of
threads that hold no lock: `init`, `cleanup` and the begin of a call.
-/
namespace BandleCxl.Source

namespace TracePc

/-- The writer whose lock a thread holds. -/
def node : TracePc → Option Nat
  | .holding _ node | .drawing _ node | .drawn _ node _ | .writing _ node _ _ => some node
  | _ => none

/-- A thread inside `synchronized (TS_LOCK)`. -/
def stamping : TracePc → Option Unit
  | .drawing _ _ | .drawn _ _ _ => some ()
  | _ => none

/-- The timestamp a thread has drawn for its line. -/
def stamp : TracePc → Option Nat
  | .drawn _ _ ts | .writing _ _ ts _ => some ts
  | _ => none

/-- What a thread has written of its line. -/
def begun (b : TraceSetup) : TracePc → JChars
  | .writing op _ ts written => ((b.pieces op ts).take written).flatten
  | _ => []

def inside : TracePc → Bool
  | .outside => false
  | _ => true

/-- A thread that has counted its call, but not as a read or a write. -/
def uncounted : TracePc → Bool
  | .numbered _ => true
  | _ => false

/-- The call a thread has begun. -/
def op : TracePc → Option TraceOp
  | .numbered op | .tallied op | .chosen op _ | .holding op _ | .drawing op _ | .drawn op _ _
  | .writing op _ _ _ => some op
  | _ => none

end TracePc

end BandleCxl.Source

namespace BandleCxl.Invariant
open Library Source

/-- A line of a file. -/
structure TraceRecord where
  op : TraceOp
  ts : Nat

def TraceRecord.text (b : TraceSetup) (r : TraceRecord) : JChars := (b.pieces r.op r.ts).flatten

variable {T : Type*} [DecidableEq T] {b : TraceSetup} {s s' : TraceState T} {t : T}
  {pc' : TracePc} {records : Nat → List TraceRecord}

/-- Who holds which lock, and that the files are open while there is an instance. -/
structure Locked [Fintype T] (b : TraceSetup) (s : TraceState T) : Prop where
  writers : Owns s.writerLocks (TracePc.node ∘ s.pc)
  stamps : Owns (fun _ : Unit => s.tsLock) (TracePc.stamping ∘ s.pc)
  inRange : ∀ t node, (s.pc t).node = some node → node < b.nodes
  instances : s.instances = (standing TracePc.inside s.pc).card
  running : s.initialized = true ↔ s.instances ≠ 0

/-- The whole lines of a file, behind what it held before. -/
def whole (b : TraceSetup) (s : TraceState T) (records : Nat → List TraceRecord) (node : Nat) :
    JChars :=
  s.opened node ++ (records node).flatMap (TraceRecord.text b)

/-- The lines of all files. -/
def written (b : TraceSetup) (records : Nat → List TraceRecord) : List TraceOp :=
  (List.range b.nodes).flatMap fun node => (records node).map TraceRecord.op

/-- The calls that returned `Status.OK`. -/
def succeeded (returned : List (TraceOp × Bool)) : List TraceOp :=
  (returned.filter Prod.snd).map Prod.fst

structure Filed (b : TraceSetup) (s : TraceState T) (records : Nat → List TraceRecord) : Prop where
  held : ∀ t node, (s.pc t).node = some node →
    s.files node = whole b s records node ++ (s.pc t).begun b
  free : ∀ node, s.writerLocks node = none → s.files node = whole b s records node
  sorted : ∀ node, (records node).Pairwise fun r r' => r.ts ≤ r'.ts
  emitted : ∀ node, ∀ r ∈ records node, r.ts ≤ s.lastEmitted
  stamped : ∀ t node ts, (s.pc t).node = some node → (s.pc t).stamp = some ts →
    ts ≤ s.lastEmitted ∧ ∀ r ∈ records node, r.ts ≤ ts
  small : s.lastEmitted < 2 ^ 63
  returned : (written b records).Perm (succeeded s.returned)

/-! ### One thread moves -/

/-- The locks and the instances agree with where the thread now stands. -/
theorem Locked.moved [Fintype T] (h : Locked b s) (moved : s'.pc = Function.update s.pc t pc')
    (writers : Owns s'.writerLocks (Function.update (TracePc.node ∘ s.pc) t pc'.node))
    (stamps : Owns (fun _ : Unit => s'.tsLock)
      (Function.update (TracePc.stamping ∘ s.pc) t pc'.stamping))
    (inRange : ∀ node, pc'.node = some node → node < b.nodes)
    (instances : s'.instances = (standing TracePc.inside (Function.update s.pc t pc')).card)
    (running : s'.initialized = true ↔ s'.instances ≠ 0) : Locked b s' where
  writers := by rwa [moved, Function.comp_update]
  stamps := by rwa [moved, Function.comp_update]
  inRange u node holds := by
    rw [moved] at holds
    rcases eq_or_ne u t with rfl | other
    · rw [Function.update_self] at holds
      exact inRange node holds
    · rw [Function.update_of_ne other] at holds
      exact h.inRange u node holds
  instances := by rwa [moved]
  running := running

/-- The files stand as before; the thread's own place in its file and its timestamp fit. -/
theorem Filed.moved (h : Filed b s records) (moved : s'.pc = Function.update s.pc t pc')
    (files : s'.files = s.files) (opened : s'.opened = s.opened)
    (le : s.lastEmitted ≤ s'.lastEmitted) (small : s'.lastEmitted < 2 ^ 63)
    (held : ∀ node, pc'.node = some node →
      s.files node = whole b s records node ++ pc'.begun b)
    (free : ∀ node, s'.writerLocks node = none → s.files node = whole b s records node)
    (stamped : ∀ node ts, pc'.node = some node → pc'.stamp = some ts →
      ts ≤ s'.lastEmitted ∧ ∀ r ∈ records node, r.ts ≤ ts)
    (returned : succeeded s'.returned = succeeded s.returned) : Filed b s' records where
  held u node holds := by
    unfold whole
    rw [moved] at holds ⊢
    rw [files, opened]
    rcases eq_or_ne u t with rfl | other
    · rw [Function.update_self] at holds ⊢
      exact held node holds
    · rw [Function.update_of_ne other] at holds ⊢
      exact h.held u node holds
  free node unheld := by
    unfold whole
    rw [files, opened]
    exact free node unheld
  sorted := h.sorted
  emitted node r member := Nat.le_trans (h.emitted node r member) le
  stamped u node ts holds drawn := by
    rw [moved] at holds drawn
    rcases eq_or_ne u t with rfl | other
    · rw [Function.update_self] at holds drawn
      exact stamped node ts holds drawn
    · rw [Function.update_of_ne other] at holds drawn
      obtain ⟨below, above⟩ := h.stamped u node ts holds drawn
      exact ⟨Nat.le_trans below le, above⟩
  small := small
  returned := by
    rw [returned]
    exact h.returned

/-! ### Steps -/

structure TraceInv [Fintype T] (b : TraceSetup) (s : TraceState T) : Prop where
  locked : Locked b s
  filed : ∃ records, Filed b s records

section
variable [Fintype T]

/-- A thread that has no line under way before or after. -/
theorem TraceInv.quiet (h : TraceInv b s) (moved : s'.pc = Function.update s.pc t pc')
    (free : (s.pc t).node = none ∧ (s.pc t).stamping = none)
    (free' : pc'.node = none ∧ pc'.stamping = none)
    (locks : s'.writerLocks = s.writerLocks ∧ s'.tsLock = s.tsLock)
    (files : s'.files = s.files ∧ s'.opened = s.opened ∧ s'.lastEmitted = s.lastEmitted)
    (instances : s'.instances = (standing TracePc.inside (Function.update s.pc t pc')).card)
    (running : s'.initialized = true ↔ s'.instances ≠ 0)
    (returned : succeeded s'.returned = succeeded s.returned) : TraceInv b s' where
  locked := by
    refine h.locked.moved moved ?_ ?_ (by simp [free'.1]) instances running
    · rw [locks.1]
      exact h.locked.writers.same (free.1.trans free'.1.symm)
    · rw [locks.2]
      exact h.locked.stamps.same (free.2.trans free'.2.symm)
  filed := by
    obtain ⟨records, filed⟩ := h.filed
    refine ⟨records, filed.moved moved files.1 files.2.1 (Nat.le_of_eq files.2.2.symm) ?_ ?_ ?_ ?_
      returned⟩
    · rw [files.2.2]
      exact filed.small
    · simp [free'.1]
    · rw [locks.1]
      exact filed.free
    · simp [free'.1]

theorem TraceInv.begin (h : TraceInv b s) {call : YcsbCall} (stepped : s.beginStep t call = some s') :
    TraceInv b s' := by
  unfold TraceState.beginStep at stepped
  split at stepped
  · next here =>
    obtain rfl := Option.some.inj stepped
    refine h.quiet rfl (by simp [here, TracePc.node, TracePc.stamping]) ⟨rfl, rfl⟩ ⟨rfl, rfl⟩
      ⟨rfl, rfl, rfl⟩ ?_ h.locked.running rfl
    rw [standing_same (by rw [here]; rfl)]
    exact h.locked.instances
  · cases stepped

theorem TraceInv.cleanup (h : TraceInv b s) (stepped : s.cleanupStep t = some s') :
    TraceInv b s' := by
  unfold TraceState.cleanupStep at stepped
  split at stepped
  · next here =>
    obtain rfl := Option.some.inj stepped
    have running := h.locked.running
    refine h.quiet rfl (by simp [here, TracePc.node, TracePc.stamping]) ⟨rfl, rfl⟩ ⟨rfl, rfl⟩
      ⟨rfl, rfl, rfl⟩ ?_ ?_ rfl
    · have left : (standing TracePc.inside (Function.update s.pc t .outside)).card + 1 =
          (standing TracePc.inside s.pc).card := card_standing_leave (by rw [here]; rfl) rfl
      rw [← h.locked.instances] at left
      simp only [TraceState.setPc]
      omega
    · simp only [TraceState.setPc]
      split
      · next last => simp [last]
      · next more =>
        rw [running]
        omega
  · cases stepped

omit [DecidableEq T] in
/-- The files are opened while nobody has an instance, so nobody holds a lock. -/
theorem Locked.alone (h : Locked b s) (closed : ¬s.initialized = true) (u : T) :
    s.pc u = .outside := by
  have empty : (standing TracePc.inside s.pc).card = 0 := by
    rw [← h.instances]
    exact not_not.mp fun some => closed (h.running.mpr some)
  have absent : u ∉ standing TracePc.inside s.pc := by
    rw [Finset.card_eq_zero.mp empty]
    exact Finset.notMem_empty u
  rw [mem_standing] at absent
  cases here : s.pc u <;> simp_all [TracePc.inside]

theorem written_nil (b : TraceSetup) : written b (fun _ => []) = [] := by
  simp [written]

omit [DecidableEq T] [Fintype T] in
theorem Filed.opened {files : Nat → JChars} (opened : s.files = files ∧ s.opened = files)
    (clear : s.lastEmitted = 0 ∧ s.returned = []) (nobody : ∀ u, (s.pc u).node = none) :
    Filed b s fun _ => [] where
  held u node holds := by simp [nobody] at holds
  free node unheld := by simp [whole, opened.1, opened.2]
  sorted node := List.Pairwise.nil
  emitted node r member := by simp at member
  stamped u node ts holds := by simp [nobody] at holds
  small := by rw [clear.1]; decide
  returned := by rw [written_nil, clear.2]; exact List.Perm.refl []

theorem TraceInv.init (h : TraceInv b s) (stepped : s.initStep b t = some s') : TraceInv b s' := by
  unfold TraceState.initStep at stepped
  split at stepped
  · next here =>
    have free : (s.pc t).node = none ∧ (s.pc t).stamping = none := by
      simp [here, TracePc.node, TracePc.stamping]
    have entered : s.instances + 1 =
        (standing TracePc.inside (Function.update s.pc t .idle)).card := by
      rw [card_standing_enter (by rw [here]; rfl) rfl, h.locked.instances]
    dsimp only at stepped
    split at stepped
    · next running =>
      obtain rfl := Option.some.inj stepped
      exact h.quiet rfl free ⟨rfl, rfl⟩ ⟨rfl, rfl⟩ ⟨rfl, rfl, rfl⟩ entered
        (iff_of_true running (Nat.succ_ne_zero _)) rfl
    · next closed =>
      have alone := h.locked.alone closed
      split at stepped
      · cases stepped
      · obtain rfl := Option.some.inj stepped
        have nobody : ∀ u, (Function.update s.pc t .idle u).node = none := by
          intro u
          rcases eq_or_ne u t with rfl | other
          · rw [Function.update_self]
            rfl
          · rw [Function.update_of_ne other, alone]
            rfl
        refine ⟨h.locked.moved rfl ?_ ?_ nofun entered (iff_of_true rfl (Nat.succ_ne_zero _)),
          fun _ => [], Filed.opened ⟨rfl, rfl⟩ ⟨rfl, rfl⟩ nobody⟩
        · intro m u
          rw [← Function.comp_update, Function.comp_apply, nobody]
          exact iff_of_false nofun nofun
        · exact h.locked.stamps.same free.2
  · cases stepped

end

end BandleCxl.Invariant
