import BandleCxl.Invariant.Flow
import BandleCxl.Source.Admission

/-!
The admission test in 64-bit arithmetic. The replica model compares numbers without
wrap-around. What the source admits with 64-bit numbers the model admits too, so the
source has no other runs; a window whose end wraps admits nothing in the source.
-/
namespace BandleCxl.Invariant
open Library Source Bandle

variable {hash : Bytes → Nat} {d : Deployment} {s t : Cluster}

/-- An admission hands out 64-bit numbers. -/
def AdmittedFit (s : Cluster) : Action → Prop
  | .admission i _ => (s.node i).NumbersFit (Client.admitting (s.client i)).length
  | _ => True

theorem step_of_wordStep {a : Action} (fit : AdmittedFit s a) (stepped : s.wordStep hash a = some t) :
    s.step hash a = some t := by
  cases a with
  | admission i tsc =>
    simp only [Cluster.wordStep, Cluster.admitWordStep] at stepped
    split at stepped
    · next cap chunk rest pc =>
      split at stepped
      · next admits =>
        simp only [AdmittedFit, pc, Client.admitting] at fit
        have passes := admits_of_admitsWord fit admits
        simp only [Cluster.step, Cluster.admitStep, pc, if_pos passes]
        exact stepped
      · cases stepped
    · cases stepped
  | _ => exact stepped

/-- Every run of the source, as long as its numbers fit, is a run of the replica model, so
what is proved of all runs of the model holds of it. -/
theorem reachable_of_words {ok : Cluster → Action → Prop} (fit : ∀ s a, ok s a → AdmittedFit s a)
    (reached : (clusterWords hash d).ReachableUnder ok s) :
    (clusterSystem hash d).ReachableUnder ok s :=
  .within (M := clusterWords hash d) (N := clusterSystem hash d) (fun _ start => start)
    (fun s a _ allowed stepped => step_of_wordStep (fit s a allowed) stepped) reached

/-- When the window's end does not wrap either, both models take the same admission steps. -/
theorem wordStep_admission {i : NodeId} {tsc : Nat → Nat} (fit : AdmittedFit s (.admission i tsc))
    (limit : (s.node i).executeNext +
      (s.node i).chunkWindow (Client.admitting (s.client i)).length < 2 ^ 64) :
    s.wordStep hash (.admission i tsc) = s.step hash (.admission i tsc) := by
  simp only [Cluster.wordStep, Cluster.admitWordStep, Cluster.step, Cluster.admitStep]
  cases pc : s.client i with
  | admission cap chunk rest =>
    simp only [AdmittedFit, pc, Client.admitting] at fit limit
    simp only [admitsWord_iff_admits fit limit]
  | _ => rfl

/-- A window whose end wraps admits nothing. -/
theorem wrapped_window_refuses {i : NodeId} {tsc : Nat → Nat}
    (reached : (clusterSystem hash d).Reachable s) (fit : AdmittedFit s (.admission i tsc))
    (wraps : 2 ^ 64 ≤ (s.node i).executeNext +
      (s.node i).chunkWindow (Client.admitting (s.client i)).length)
    (small : (s.node i).chunkWindow (Client.admitting (s.client i)).length < 2 ^ 64) :
    s.wordStep hash (.admission i tsc) = none := by
  have next := (flow_reachable reached).next_le i i
  simp only [Cluster.wordStep, Cluster.admitWordStep]
  cases pc : s.client i with
  | admission cap chunk rest =>
    simp only [AdmittedFit, pc, Client.admitting] at fit wraps small
    have refused : ¬ (s.node i).AdmitsWord chunk.length := by
      unfold AdmitsWord
      rw [fit.last, add64]
      unfold NumbersFit at fit
      omega
    simp only [if_neg refused]
  | _ => rfl

end BandleCxl.Invariant
