import BandleCxl.Invariant.RingAccess
import BandleCxl.Library.Lockstep

/-!
The invariant of the sending side. Only the holder of `send_mu_` is inside a call on a ring,
and the producers of the rings stand where its loop over the peers says. Each peer has been
sent the whole log of calls, or all of it but the call that is being sent, and the log has
the calls in the order in which they took the mutex.
-/
namespace BandleCxl.Invariant
open Library Source SendSide

/-- The mutex is held. -/
def Inside : SendPc → Prop
  | .outside | .entered _ => False
  | _ => True

def Places (peers : List NodeId) (ring : NodeId → SpscRing) : SendPc → Prop
  | .asking batch todo =>
    Placed peers todo (Roomy batch.msgs) (Asks (.batch batch.msgs)) Idle ring
  | .writing batch todo =>
    Placed peers todo (Filled batch.msgs) (Fills batch.msgs) (Roomy batch.msgs) ring
  | .publishing batch todo => Placed peers todo Idle (Filled batch.msgs) (Filled batch.msgs) ring
  | .pushing msg todo => Placed peers todo Idle (Pushes msg) Idle ring
  | .pushTop _ todo => todo <:+ peers ∧ ∀ p ∈ peers, Idle (ring p).producer
  | _ => ∀ p ∈ peers, Idle (ring p).producer

/-- What each peer has been sent. Once `running_` is cleared nothing more is sent, so that a
peer may stay behind. -/
def Streams (peers : List NodeId) (log : List (List BandleMessage)) (running : Bool)
    (stream : NodeId → List BandleMessage) : SendPc → Prop
  | .asking _ _ | .writing _ _ => ∀ p ∈ peers, CaughtUp log (stream p)
  | .publishing batch todo => Stage peers todo log batch.msgs stream
  | .pushing msg todo => Stage peers todo log [msg] stream
  | .pushTop msg todo => running = true → Stage peers todo log [msg] stream
  | _ => running = true → ∀ p ∈ peers, CaughtUp log (stream p)

/-- The holder's call, as long as it is not logged. -/
def pendingOf (peers : List NodeId) : SendPc → List (List BandleMessage)
  | .batchTop batch | .asking batch _ | .writing batch _ => [batch.msgs]
  | .publishing batch todo => if todo = peers then [batch.msgs] else []
  | .pushTop msg todo | .pushing msg todo => if todo = peers then [[msg]] else []
  | .outside | .entered _ | .leaving => []

/-- The call that waits for the mutex. -/
def waitingOf : SendPc → List (List BandleMessage)
  | .entered call => [call.msgs]
  | _ => []

theorem waitingOf_inside {pc : SendPc} (inside : Inside pc) : waitingOf pc = [] := by
  cases pc with
  | entered call => exact inside.elim
  | _ => rfl

section
variable {ι : Type*}

/-- Of the calls that took the mutex, those taken up are in order, and none is missing but
refused ones as long as `running_` is set. -/
structure Accounts (running : Bool) (locked taken : List (ι × List BandleMessage)) : Prop where
  order : taken.Sublist locked
  complete : running = true → taken.filter (Fits ·.2) = locked.filter (Fits ·.2)

variable {running : Bool} {locked taken : List (ι × List BandleMessage)}

theorem Accounts.drop {call : ι × List BandleMessage} (h : Accounts running locked (taken ++ [call]))
    (refused : running = true → ¬Fits call.2 = true) : Accounts running locked taken where
  order := (List.sublist_append_left taken [call]).trans h.order
  complete runs := by
    have long : Fits call.2 = false := Bool.eq_false_iff.mpr (refused runs)
    rw [← h.complete runs, List.filter_append, List.filter_singleton, long, cond_false,
      List.append_nil]

theorem Accounts.call (h : Accounts running locked taken) (call : ι × List BandleMessage) :
    Accounts running (locked ++ [call]) (taken ++ [call]) where
  order := h.order.append (List.Sublist.refl _)
  complete runs := by rw [List.filter_append, List.filter_append, h.complete runs]

end

section
variable {ι : Type*} [DecidableEq ι] {r : RingShape} {i : NodeId} {s s' : SendSide ι}

/-- The place of the thread that holds the mutex. -/
def holderPc (s : SendSide ι) : SendPc :=
  match s.owner with
  | some t => s.pc t
  | none => .outside

/-- The holder's call, if it is not logged. -/
def held (peers : List NodeId) (s : SendSide ι) : List (ι × List BandleMessage) :=
  match s.owner with
  | some t => (pendingOf peers (s.pc t)).map (Prod.mk t)
  | none => []

/-- The calls of a thread. -/
def loggedBy (log : List (ι × List BandleMessage)) (t : ι) : List (List BandleMessage) :=
  (log.filter (·.1 = t)).map Prod.snd

structure SendInv (r : RingShape) (i : NodeId) (s : SendSide ι) : Prop where
  rings : ∀ p, (ringSystem r).Reachable (s.ring p)
  inside : ∀ t, Inside (s.pc t) ↔ s.owner = some t
  places : Places (peersOf i) s.ring (holderPc s)
  streams : Streams (peersOf i) (s.log.map Prod.snd) s.running (fun p => (s.ring p).hist.published)
    (holderPc s)
  along : ∀ p ∈ peersOf i, Along (s.log.map Prod.snd) (s.ring p).hist.published
  turns : Accounts s.running s.locked (s.log ++ held (peersOf i) s)
  calls : ∀ t, s.calls t = loggedBy s.locked t ++ waitingOf (s.pc t)
  fits : ∀ call ∈ s.log, Fits call.2 = true

theorem peersOf_ne_nil (i : NodeId) : peersOf i ≠ [] := by
  fin_cases i <;> decide

theorem send_start (start : (sendSystem ι r i).init s) :
    s.running = true ∧ (∀ t, s.pc t = .outside) ∧ ∀ p, ∃ descs out, s.ring p = .initial descs out := by
  obtain ⟨ring, started, rfl⟩ := start
  exact ⟨rfl, fun _ => rfl, started⟩

theorem SendInv.init (start : (sendSystem ι r i).init s) : SendInv r i s := by
  obtain ⟨ring, started, rfl⟩ := start
  have nothing : ∀ p, (ring p).producer = .idle ∧ (ring p).hist.published = [] := by
    intro p
    obtain ⟨descs, out, same⟩ := started p
    rw [same]
    exact ⟨rfl, rfl⟩
  constructor
  · exact fun p => .start (started p)
  · intro t
    simp [Inside]
  · exact fun p _ => (nothing p).1
  · exact fun _ p _ => (nothing p).2
  · exact fun p _ => Or.inl (nothing p).2
  · exact ⟨List.Sublist.refl _, fun _ => rfl⟩
  · exact fun _ => rfl
  · exact nofun

/-! ### Steps of the holder -/

/-- What the invariant says at the place `pc` of the holder `t`. -/
structure HolderAt (i : NodeId) (s : SendSide ι) (t : ι) (pc : SendPc) : Prop where
  holds : s.owner = some t
  stands : holderPc s = pc
  places : Places (peersOf i) s.ring pc
  streams : Streams (peersOf i) (s.log.map Prod.snd) s.running (fun p => (s.ring p).hist.published) pc
  account : Accounts s.running s.locked (s.log ++ (pendingOf (peersOf i) pc).map (Prod.mk t))

theorem SendInv.holder (h : SendInv r i s) {t : ι} {pc : SendPc} (here : s.pc t = pc)
    (inside : Inside pc) : HolderAt i s t pc := by
  subst here
  have holds := (h.inside t).mp inside
  have stands : holderPc s = s.pc t := by rw [holderPc, holds]
  have places := h.places
  have streams := h.streams
  have turns := h.turns
  rw [stands] at places streams
  simp only [held, holds] at turns
  exact ⟨holds, stands, places, streams, turns⟩

/-- The holder goes on to `pc`, with other rings and log. -/
theorem SendInv.move (h : SendInv r i s) {t : ι} (holds : s.owner = some t) {pc : SendPc}
    (inside : Inside pc) {ring : NodeId → SpscRing} {log : List (ι × List BandleMessage)}
    (rings : ∀ p, (ringSystem r).Reachable (ring p)) (places : Places (peersOf i) ring pc)
    (streams : Streams (peersOf i) (log.map Prod.snd) s.running
      (fun p => (ring p).hist.published) pc)
    (along : ∀ p ∈ peersOf i, Along (log.map Prod.snd) (ring p).hist.published)
    (turns : Accounts s.running s.locked (log ++ (pendingOf (peersOf i) pc).map (Prod.mk t)))
    (fits : ∀ call ∈ log, Fits call.2 = true) :
    SendInv r i { s with ring := ring, log := log, pc := Function.update s.pc t pc } := by
  have now : holderPc { s with ring := ring, log := log, pc := Function.update s.pc t pc } = pc := by
    simp only [holderPc, holds, Function.update_self]
  constructor
  · exact rings
  · intro u
    by_cases same : u = t
    · subst u
      simp only [Function.update_self, holds, inside]
    · dsimp only
      rw [Function.update_of_ne same]
      exact h.inside u
  · rw [now]
    exact places
  · rw [now]
    exact streams
  · exact along
  · simp only [held, holds, Function.update_self]
    exact turns
  · intro u
    have calls := h.calls u
    by_cases same : u = t
    · subst u
      rw [waitingOf_inside ((h.inside _).mpr holds)] at calls
      dsimp only
      rw [Function.update_self, waitingOf_inside inside]
      exact calls
    · dsimp only
      rw [Function.update_of_ne same]
      exact calls
  · exact fits

/-- The holder goes on without a publication. -/
theorem SendInv.goOn (h : SendInv r i s) {t : ι} (holds : s.owner = some t) {pc : SendPc}
    (inside : Inside pc) {ring : NodeId → SpscRing}
    (rings : ∀ p, (ringSystem r).Reachable (ring p))
    (still : (fun p => (ring p).hist.published) = fun p => (s.ring p).hist.published)
    (places : Places (peersOf i) ring pc)
    (streams : Streams (peersOf i) (s.log.map Prod.snd) s.running
      (fun p => (s.ring p).hist.published) pc)
    (turns : Accounts s.running s.locked (s.log ++ (pendingOf (peersOf i) pc).map (Prod.mk t))) :
    SendInv r i { s with ring := ring, pc := Function.update s.pc t pc } := by
  refine h.move holds inside rings places (by rw [still]; exact streams) (fun p member => ?_) turns
    h.fits
  rw [show (ring p).hist.published = (s.ring p).hist.published from congrFun still p]
  exact h.along p member

theorem SendInv.reachable_update (h : SendInv r i s) {p : NodeId} {ring : SpscRing}
    {a : RingAction} (stepped : (s.ring p).step r a = some ring) :
    ∀ q, (ringSystem r).Reachable (Function.update s.ring p ring q) := by
  intro q
  by_cases same : q = p
  · rw [same, Function.update_self]
    exact .next a (h.rings p) stepped
  · rw [Function.update_of_ne same]
    exact h.rings q

/-- The ring of a peer moves, and nothing else. -/
theorem SendInv.stay (h : SendInv r i s) {p : NodeId} {ring : SpscRing} {a : RingAction}
    (stepped : (s.ring p).step r a = some ring)
    (still : ring.hist.published = (s.ring p).hist.published)
    (places : Places (peersOf i) (Function.update s.ring p ring) (holderPc s)) :
    SendInv r i (s.setRing p ring) := by
  have same := published_still still
  constructor
  · exact h.reachable_update stepped
  · exact h.inside
  · exact places
  · have streams := h.streams
    simp only [SendSide.setRing]
    rw [same]
    exact streams
  · intro q member
    have along := h.along q member
    rw [← show (Function.update s.ring p ring q).hist.published = (s.ring q).hist.published from
      congrFun same q] at along
    exact along
  · exact h.turns
  · exact h.calls
  · exact h.fits

end

end BandleCxl.Invariant
