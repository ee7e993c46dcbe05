import Mathlib.Tactic

/-!
Objects that answer calls. Running a list of calls threads the state and collects
the answers; if two objects answer alike from related states and stay related, they
answer alike along every list of calls.
-/
namespace BandleCxl.Library

variable {σ τ Call Answer : Type*}

def runCalls (exec : σ → Call → σ × Answer) : σ → List Call → σ × List Answer
  | s, [] => (s, [])
  | s, call :: rest =>
    let first := exec s call
    let others := runCalls exec first.1 rest
    (others.1, first.2 :: others.2)

/-- One call from related states. -/
def Simulates (R : σ → τ → Prop) (exec : σ → Call → σ × Answer) (spec : τ → Call → τ × Answer) :
    Prop :=
  ∀ s t call, R s t → R (exec s call).1 (spec t call).1 ∧ (exec s call).2 = (spec t call).2

theorem Simulates.run {R : σ → τ → Prop} {exec : σ → Call → σ × Answer}
    {spec : τ → Call → τ × Answer} (simulates : Simulates R exec spec) {s : σ} {t : τ}
    (related : R s t) (calls : List Call) :
    R (runCalls exec s calls).1 (runCalls spec t calls).1 ∧
      (runCalls exec s calls).2 = (runCalls spec t calls).2 := by
  induction calls generalizing s t with
  | nil => exact ⟨related, rfl⟩
  | cons call rest ih =>
    obtain ⟨next, answer⟩ := simulates s t call related
    obtain ⟨final, answers⟩ := ih next
    exact ⟨final, by simp only [runCalls, answer, answers]⟩

end BandleCxl.Library
