import BandleCxl.Invariant.Broadcast

/-!
Every step of every thread keeps the invariant of the sending side.
-/
namespace BandleCxl.Invariant
open Library Source SendSide

variable {ι : Type*} [DecidableEq ι] {r : RingShape} {i : NodeId} {s s' : SendSide ι}

/-! ### Steps of the loops -/

theorem SendInv.asking (h : SendInv r i s) {t : ι} {batch : MessageArray} {p : NodeId}
    {todo : List NodeId} (here : s.pc t = .asking batch (p :: todo)) {v : Nat} {ring : SpscRing}
    (accessed : (s.ring p).access r (.batch batch.msgs) v = some ring) :
    SendInv r i ((s.setRing p ring).afterAsking i t batch todo ring.producer) := by
  obtain ⟨holds, stands, places, streams, account⟩ := h.holder here trivial
  have nodup := peersOf_nodup i
  obtain ⟨a, stepped⟩ := access_step accessed
  obtain ⟨sent, produced, published⟩ := produces_access accessed
  obtain ⟨rfl, outcome⟩ := places.first.access produced
  rw [List.append_nil] at published
  have still := published_still published
  have rings := h.reachable_update stepped
  rcases outcome with asks | room | idle
  · have stays : (s.setRing p ring).afterAsking i t batch todo ring.producer = s.setRing p ring := by
      rcases asks with new | ⟨head, new⟩ <;> simp only [new, SendSide.afterAsking]
    rw [stays]
    refine h.stay stepped published ?_
    rw [stands]
    exact places.stay nodup (Or.inr asks)
  · have next := places.next nodup room fun pc idle => Or.inl idle
    obtain ⟨head, new⟩ := room
    simp only [new, SendSide.afterAsking]
    cases todo with
    | nil =>
      refine h.goOn holds (by trivial) rings still ?_ streams account
      exact Placed.start (fun q member => next.all_passed q member) fun pc => Roomy.fills
    | cons q todo => exact h.goOn holds (by trivial) rings still next streams account
  · -- no room: what was asked before is asked again
    have new : ring.producer = .idle := idle
    simp only [new, SendSide.afterAsking]
    refine h.goOn holds (by trivial) (fun q => abandoned_reachable (rings q)) ?_ ?_ (fun _ => streams)
      account
    · rw [← still]
      funext q
      exact abandoned_published _
    · have kept := places.stay nodup idle
      exact kept.abandon (fun _ => Roomy.answered) (fun _ => Idle.answered) fun _ => Idle.answered

theorem SendInv.writing (h : SendInv r i s) {t : ι} {batch : MessageArray} {p : NodeId}
    {todo : List NodeId} (here : s.pc t = .writing batch (p :: todo)) {v : Nat} {ring : SpscRing}
    (accessed : (s.ring p).access r (.batch batch.msgs) v = some ring) :
    SendInv r i ((s.setRing p ring).afterWriting i t batch todo ring.producer) := by
  obtain ⟨holds, stands, places, streams, account⟩ := h.holder here trivial
  have nodup := peersOf_nodup i
  obtain ⟨a, stepped⟩ := access_step accessed
  obtain ⟨sent, produced, published⟩ := produces_access accessed
  obtain ⟨rfl, outcome⟩ := places.first.access produced
  rw [List.append_nil] at published
  have still := published_still published
  have rings := h.reachable_update stepped
  rcases outcome with fills | filled | ⟨idle, long⟩
  · have stays : (s.setRing p ring).afterWriting i t batch todo ring.producer = s.setRing p ring := by
      rcases fills with ⟨head, k, new, -⟩ | ⟨head, k, new, -⟩ <;>
        simp only [new, SendSide.afterWriting]
    rw [stays]
    refine h.stay stepped published ?_
    rw [stands]
    exact places.stay nodup fills
  · have next := places.next nodup filled fun pc => Roomy.fills
    obtain ⟨⟨head, new⟩, -⟩ := filled
    simp only [new, SendSide.afterWriting]
    cases todo with
    | nil =>
      refine h.goOn holds (by trivial) rings still ?_ (.start streams) ?_
      · exact Placed.start (fun q member => next.all_passed q member) fun _ filled => filled
      · simp only [List.isEmpty_nil, if_true, pendingOf]
        exact account
    | cons q todo => exact h.goOn holds (by trivial) rings still next streams account
  · have new : ring.producer = .idle := idle
    simp only [new, SendSide.afterWriting]
    refine h.goOn holds (by trivial) (fun q => abandoned_reachable (rings q)) ?_ ?_
      (fun _ => streams) ?_
    · rw [← still]
      funext q
      exact abandoned_published _
    · have kept := places.stay nodup idle
      exact kept.abandon (fun _ => Filled.answered) (fun _ => Idle.answered) fun _ => Roomy.answered
    · rw [pendingOf, List.map_nil, List.append_nil]
      exact account.drop fun _ => long

section
variable (i : NodeId) (log : List (ι × List BandleMessage)) (t : ι) (msgs : List BandleMessage)
  (todo : List NodeId)

omit [DecidableEq ι] in
theorem logFirst_blocks : (logFirst i log t msgs todo).map Prod.snd =
    if todo = peersOf i then log.map Prod.snd ++ [msgs] else log.map Prod.snd := by
  unfold logFirst
  split
  · rw [List.map_append, List.map_singleton]
  · rfl

omit [DecidableEq ι] in
theorem logFirst_eq : logFirst i log t msgs todo =
    log ++ (if todo = peersOf i then [msgs] else []).map (Prod.mk t) := by
  unfold logFirst
  split
  · rfl
  · exact (List.append_nil _).symm

omit [DecidableEq ι] in
theorem logFirst_fits (before : ∀ call ∈ log, Fits call.2 = true) (fits : Fits msgs = true) :
    ∀ call ∈ logFirst i log t msgs todo, Fits call.2 = true := by
  intro call member
  unfold logFirst at member
  split at member
  · rcases List.mem_append.mp member with old | new
    · exact before call old
    · rw [List.mem_singleton.mp new]
      exact fits
  · exact before call member

end

/-- A head is stored for the peer that the loop is at. -/
theorem SendInv.publish (h : SendInv r i s) {t : ι} (holds : s.owner = some t) {p : NodeId}
    {todo : List NodeId} {msgs : List BandleMessage} {ring : SpscRing} {a : RingAction}
    (stepped : (s.ring p).step r a = some ring)
    (published : ring.hist.published = (s.ring p).hist.published ++ msgs)
    (fits : Fits msgs = true) (suffix : p :: todo <:+ peersOf i)
    (stage : Stage (peersOf i) (p :: todo) (s.log.map Prod.snd) msgs
      fun q => (s.ring q).hist.published)
    (pending : pendingOf (peersOf i) (s.pc t) = if p :: todo = peersOf i then [msgs] else [])
    {pc : SendPc} (inside : Inside pc)
    (places : Places (peersOf i) (Function.update s.ring p ring) pc)
    (taken : pendingOf (peersOf i) pc = [])
    (streams : ∀ log stream, Stage (peersOf i) todo log msgs stream →
      Streams (peersOf i) log s.running stream pc) :
    SendInv r i { (s.setRing p ring).setPc t pc with log := logFirst i s.log t msgs (p :: todo) } := by
  have account := (h.holder rfl ((h.inside t).mpr holds)).account
  rw [pending, ← logFirst_eq] at account
  have next := stage.send suffix (peersOf_nodup i) (logFirst_blocks i s.log t msgs (p :: todo))
  rw [← published, ← published_update] at next
  refine h.move holds inside (h.reachable_update stepped) places (streams _ _ next) next.along ?_
    (logFirst_fits _ _ _ _ _ h.fits fits)
  rw [taken, List.map_nil, List.append_nil]
  exact account

theorem shorter_ne {p : NodeId} {todo peers : List NodeId} (suffix : p :: todo <:+ peers) :
    todo ≠ peers := by
  rintro rfl
  have := suffix.length_le
  simp at this

theorem SendInv.publishing (h : SendInv r i s) {t : ι} {batch : MessageArray} {p : NodeId}
    {todo : List NodeId} (here : s.pc t = .publishing batch (p :: todo)) {ring : SpscRing}
    (stepped : (s.ring p).storeHeadStep = some ring) :
    SendInv r i { (s.setRing p ring).setPc t
        (if todo.isEmpty then .leaving else .publishing batch todo) with
      log := logFirst i s.log t batch.msgs (p :: todo) } := by
  obtain ⟨holds, -, places, stage, -⟩ := h.holder here trivial
  obtain ⟨sent, produced, published⟩ := produces_storeHead (.batch batch.msgs) stepped
  obtain ⟨idle, rfl, fits⟩ := places.first.access produced
  have next := places.next (peersOf_nodup i) idle fun _ filled => filled
  have step : (s.ring p).step r .storeHead = some ring := stepped
  have pending : pendingOf (peersOf i) (s.pc t) =
      if p :: todo = peersOf i then [batch.msgs] else [] := by
    rw [here]
    rfl
  cases todo with
  | nil =>
    exact h.publish holds step published fits places.suffix stage pending (by trivial)
      next.all_passed rfl fun _ _ stage _ => stage.finish
  | cons q todo =>
    refine h.publish holds step published fits places.suffix stage pending (by trivial) next ?_
      fun _ _ stage => stage
    exact if_neg (shorter_ne places.suffix)

theorem SendInv.pushing (h : SendInv r i s) {t : ι} {msg : BandleMessage} {p : NodeId}
    {todo : List NodeId} (here : s.pc t = .pushing msg (p :: todo)) {v : Nat} {ring : SpscRing}
    (accessed : (s.ring p).access r (.push msg) v = some ring) :
    SendInv r i ((s.setRing p ring).afterPushing i t msg p todo (s.ring p).producer.publishes
      ring.producer) := by
  obtain ⟨holds, stands, places, stage, account⟩ := h.holder here trivial
  have nodup := peersOf_nodup i
  obtain ⟨a, stepped⟩ := access_step accessed
  obtain ⟨sent, produced, published⟩ := produces_access accessed
  have pending : pendingOf (peersOf i) (s.pc t) = if p :: todo = peersOf i then [[msg]] else [] := by
    rw [here]
    rfl
  rcases places.first.access produced with ⟨stores, idle, rfl, fits⟩ | ⟨other, rfl, goesOn | idle⟩
  · have new : ring.producer = .idle := idle
    have next := places.next nodup idle fun _ idle => Or.inl (Or.inl idle)
    have kept : Placed _ _ Idle Idle Idle _ := places.stay nodup idle
    simp only [stores, new, SendSide.afterPushing, if_true]
    refine h.publish holds stepped published fits places.suffix stage pending (by trivial)
      ⟨next.suffix, kept.all⟩ (if_neg (shorter_ne places.suffix)) fun _ _ stage _ => stage
  · rw [List.append_nil] at published
    have stays : (s.setRing p ring).afterPushing i t msg p todo (s.ring p).producer.publishes
        ring.producer = s.setRing p ring := by
      unfold SendSide.afterPushing
      split
      · next new => exact absurd new goesOn.1
      · rfl
    rw [stays]
    refine h.stay stepped published ?_
    rw [stands]
    exact places.stay nodup goesOn.2
  · rw [List.append_nil] at published
    have new : ring.producer = .idle := idle
    have kept : Placed _ _ Idle Idle Idle _ := places.stay nodup idle
    simp only [other, new, SendSide.afterPushing, Bool.false_eq_true, if_false]
    refine h.goOn holds (by trivial) (h.reachable_update stepped) (published_still published)
      ⟨places.suffix, kept.all⟩ (fun _ => stage) account

theorem SendInv.call (h : SendInv r i s) {t : ι} {call : SendCall}
    (stepped : s.callStep t call = some s') : SendInv r i s' := by
  unfold SendSide.callStep at stepped
  split at stepped
  · next here =>
    split at stepped
    · cases stepped
      exact h
    · cases stepped
      have outside : s.owner ≠ some t := by
        rw [ne_eq, ← h.inside, here]
        exact id
      have same : holderPc { s.setPc t (.entered call) with
          calls := Function.update s.calls t (s.calls t ++ [call.msgs]) } = holderPc s := by
        unfold holderPc SendSide.setPc
        cases owner : s.owner with
        | none => rfl
        | some u =>
          dsimp only
          rw [Function.update_of_ne]
          rintro rfl
          exact outside owner
      constructor
      · exact h.rings
      · intro u
        by_cases here : u = t
        · subst u
          simp only [SendSide.setPc, Function.update_self]
          exact iff_of_false id outside
        · simp only [SendSide.setPc]
          rw [Function.update_of_ne here]
          exact h.inside u
      · rw [same]
        exact h.places
      · rw [same]
        exact h.streams
      · exact h.along
      · have turns := h.turns
        have others : held (peersOf i) { s.setPc t (.entered call) with
            calls := Function.update s.calls t (s.calls t ++ [call.msgs]) } = held (peersOf i) s := by
          unfold held SendSide.setPc
          cases owner : s.owner with
          | none => rfl
          | some u =>
            dsimp only
            rw [Function.update_of_ne]
            rintro rfl
            exact outside owner
        rw [others]
        exact turns
      · intro u
        have calls := h.calls u
        by_cases same : u = t
        · subst u
          rw [here] at calls
          simp only [SendSide.setPc, Function.update_self]
          rw [calls, waitingOf, List.append_assoc]
          rfl
        · simp only [SendSide.setPc]
          rw [Function.update_of_ne same, Function.update_of_ne same]
          exact calls
      · exact h.fits
  · cases stepped

/-- The mutex changes hands while no ring is in use. -/
theorem SendInv.handOver (h : SendInv r i s) {t : ι} {owner : Option ι} {pc : SendPc}
    {locked : List (ι × List BandleMessage)}
    (turn : s.owner = none ∧ owner = some t ∨ s.owner = some t ∧ owner = none)
    (inside : Inside pc ↔ owner = some t)
    (places : Places (peersOf i) s.ring pc)
    (streams : Streams (peersOf i) (s.log.map Prod.snd) s.running
      (fun p => (s.ring p).hist.published) pc)
    (rest : owner = none → pc = .outside)
    (turns : Accounts s.running locked (s.log ++ (pendingOf (peersOf i) pc).map (Prod.mk t)))
    (own : s.calls t = loggedBy locked t ++ waitingOf pc)
    (others : ∀ u, u ≠ t → loggedBy locked u = loggedBy s.locked u) :
    SendInv r i { s.setPc t pc with owner := owner, locked := locked } := by
  have now : holderPc { s.setPc t pc with owner := owner, locked := locked } = pc := by
    unfold holderPc SendSide.setPc
    rcases turn with ⟨-, rfl⟩ | ⟨-, rfl⟩
    · dsimp only
      rw [Function.update_self]
    · exact (rest rfl).symm
  constructor
  · exact h.rings
  · intro u
    simp only [SendSide.setPc]
    by_cases same : u = t
    · subst u
      rw [Function.update_self]
      exact inside
    · rw [Function.update_of_ne same, h.inside u]
      rcases turn with ⟨old, rfl⟩ | ⟨old, rfl⟩ <;> simp [old, Ne.symm same]
  · rw [now]
    exact places
  · rw [now]
    exact streams
  · exact h.along
  · have pending : held (peersOf i) { s.setPc t pc with owner := owner, locked := locked } =
        (pendingOf (peersOf i) pc).map (Prod.mk t) := by
      unfold held SendSide.setPc
      rcases turn with ⟨-, rfl⟩ | ⟨-, rfl⟩
      · dsimp only
        rw [Function.update_self]
      · rw [rest rfl]
        rfl
    rw [pending]
    exact turns
  · intro u
    simp only [SendSide.setPc]
    by_cases same : u = t
    · subst u
      rw [Function.update_self]
      exact own
    · rw [Function.update_of_ne same, others u same]
      exact h.calls u
  · exact h.fits

/-- With the mutex free everything that took it is in the log or was refused. -/
theorem SendInv.free_turns (h : SendInv r i s) (free : s.owner = none) :
    Accounts s.running s.locked s.log := by
  have turns := h.turns
  simp only [held, free, List.append_nil] at turns
  exact turns

/-- The call that waited is the thread's next to take the mutex. -/
theorem SendInv.takesTurn (h : SendInv r i s) {t : ι} {call : SendCall} {pc : SendPc}
    (here : s.pc t = .entered call) (taken : waitingOf pc = []) :
    s.calls t = loggedBy (s.locked ++ [(t, call.msgs)]) t ++ waitingOf pc := by
  have calls := h.calls t
  rw [here] at calls
  rw [calls, taken]
  simp [loggedBy, waitingOf]

theorem loggedBy_locks (locked : List (ι × List BandleMessage)) (t : ι) (msgs : List BandleMessage)
    (u : ι) (other : u ≠ t) : loggedBy (locked ++ [(t, msgs)]) u = loggedBy locked u := by
  simp [loggedBy, Ne.symm other]

theorem SendInv.lock (h : SendInv r i s) {t : ι} (stepped : s.lockStep i t = some s') :
    SendInv r i s' := by
  have places := h.places
  have streams := h.streams
  unfold SendSide.lockStep at stepped
  split at stepped
  · next msg here free =>
    cases stepped
    simp only [holderPc, free] at places streams
    refine h.handOver (Or.inl ⟨free, rfl⟩) (by simp [Inside]) ⟨List.suffix_refl _, places⟩
      (fun runs => .start (streams runs)) (fun free => absurd free (Option.some_ne_none t)) ?_
      (h.takesTurn here rfl) (loggedBy_locks s.locked t [msg])
    rw [pendingOf, if_pos rfl]
    exact (h.free_turns free).call (t, [msg])
  · next batch here free =>
    cases stepped
    simp only [holderPc, free] at places streams
    exact h.handOver (Or.inl ⟨free, rfl⟩) (by simp [Inside]) places streams
      (fun free => absurd free (Option.some_ne_none t))
      ((h.free_turns free).call (t, batch.msgs)) (h.takesTurn here rfl)
      (loggedBy_locks s.locked t batch.msgs)
  · cases stepped

theorem SendInv.unlock (h : SendInv r i s) {t : ι} (stepped : s.unlockStep t = some s') :
    SendInv r i s' := by
  unfold SendSide.unlockStep at stepped
  split at stepped
  · next here =>
    cases stepped
    obtain ⟨holds, -, places, streams, account⟩ := h.holder here trivial
    have own := h.calls t
    rw [here] at own
    exact h.handOver (Or.inr ⟨holds, rfl⟩) (by simp [Inside]) places streams (fun _ => rfl) account
      own fun _ _ => rfl
  · cases stepped

theorem SendInv.loadRunning (h : SendInv r i s) {t : ι}
    (stepped : s.loadRunningStep i t = some s') : SendInv r i s' := by
  unfold SendSide.loadRunningStep at stepped
  split at stepped
  · next batch here =>
    cases stepped
    obtain ⟨holds, -, places, streams, account⟩ := h.holder here trivial
    split
    · next runs =>
      exact h.goOn holds (by trivial) h.rings rfl (Placed.start places fun _ idle => Or.inl idle)
        (streams runs) account
    · next stopped =>
      refine h.goOn holds (by trivial) h.rings rfl places streams ?_
      rw [pendingOf, List.map_nil, List.append_nil]
      exact account.drop fun runs => absurd runs stopped
  · next msg p todo here =>
    cases stepped
    obtain ⟨holds, -, places, streams, account⟩ := h.holder here trivial
    split
    · next runs =>
      refine h.goOn holds (by trivial) h.rings rfl ?_ (streams runs) account
      exact ⟨places.1, fun q member _ => places.2 q member,
        fun q first => Or.inl (Or.inl (places.2 q (places.1.subset (List.mem_of_mem_head? first)))),
        fun q later => places.2 q (places.1.subset (List.mem_of_mem_tail later))⟩
    · next stopped =>
      refine h.goOn holds (by trivial) h.rings rfl
        ⟨(List.suffix_cons p todo).trans places.1, places.2⟩ (fun runs => absurd runs stopped) ?_
      rw [pendingOf, if_neg (shorter_ne places.1), List.map_nil, List.append_nil]
      rw [pendingOf] at account
      split at account
      · exact account.drop fun runs => absurd runs stopped
      · rw [List.map_nil, List.append_nil] at account
        exact account
  · next msg here =>
    cases stepped
    obtain ⟨holds, -, places, streams, account⟩ := h.holder here trivial
    rw [pendingOf, if_neg (peersOf_ne_nil i).symm] at account
    exact h.goOn holds (by trivial) h.rings rfl places.2 (fun runs => (streams runs).finish) account
  · cases stepped

theorem SendInv.access (h : SendInv r i s) {t : ι} {v : Nat}
    (stepped : s.accessStep r i t v = some s') : SendInv r i s' := by
  unfold SendSide.accessStep at stepped
  split at stepped
  · next batch p todo here =>
    split at stepped
    · next ring accessed =>
      cases stepped
      exact h.asking here accessed
    · cases stepped
  · next batch p todo here =>
    split at stepped
    · next ring accessed =>
      cases stepped
      exact h.writing here accessed
    · cases stepped
  · next batch p todo here =>
    split at stepped
    · next ring stored =>
      cases stepped
      exact h.publishing here stored
    · cases stepped
  · next msg p todo here =>
    split at stepped
    · next ring accessed =>
      cases stepped
      exact h.pushing here accessed
    · cases stepped
  · cases stepped

theorem Streams.stop {peers : List NodeId} {log : List (List BandleMessage)} {running : Bool}
    {stream : NodeId → List BandleMessage} {pc : SendPc} (h : Streams peers log running stream pc) :
    Streams peers log false stream pc := by
  cases pc with
  | asking | writing | publishing | pushing => exact h
  | outside | entered | batchTop | pushTop | leaving => exact nofun

theorem SendInv.stop (h : SendInv r i s) : SendInv r i { s with running := false } where
  rings := h.rings
  inside := h.inside
  places := h.places
  streams := h.streams.stop
  along := h.along
  turns := ⟨h.turns.order, nofun⟩
  calls := h.calls
  fits := h.fits

theorem SendInv.consume (h : SendInv r i s) {p : NodeId} {a : RingAction}
    (stepped : s.consumeStep r p a = some s') : SendInv r i s' := by
  unfold SendSide.consumeStep at stepped
  split at stepped
  · next reads =>
    obtain ⟨ring, moved, rfl⟩ := Option.map_eq_some_iff.mp stepped
    obtain ⟨producer, published⟩ := consumer_frame reads moved
    refine h.stay moved published ?_
    have same : ∀ q, (Function.update s.ring p ring q).producer = (s.ring q).producer := by
      intro q
      by_cases here : q = p
      · rw [here, Function.update_self, producer]
      · rw [Function.update_of_ne here]
    have places := h.places
    revert places
    cases holderPc s with
    | asking | writing | publishing | pushing =>
      rintro ⟨suffix, passed, now, coming⟩
      exact ⟨suffix, fun q member outside => by rw [same]; exact passed q member outside,
        fun q first => by rw [same]; exact now q first,
        fun q later => by rw [same]; exact coming q later⟩
    | pushTop =>
      rintro ⟨suffix, idle⟩
      exact ⟨suffix, fun q member => by rw [same]; exact idle q member⟩
    | outside | entered | batchTop | leaving =>
      intro idle q member
      rw [same]
      exact idle q member
  · cases stepped

theorem SendInv.step (h : SendInv r i s) {a : SendAction ι}
    (stepped : (sendSystem ι r i).step s a = some s') : SendInv r i s' := by
  cases a with
  | call t call => exact h.call stepped
  | lock t => exact h.lock stepped
  | loadRunning t => exact h.loadRunning stepped
  | access t v => exact h.access stepped
  | unlock t => exact h.unlock stepped
  | stop =>
    cases stepped
    exact h.stop
  | consume p a => exact h.consume stepped

theorem send_reachable (reached : (sendSystem ι r i).Reachable s) : SendInv r i s :=
  reached.invariant (fun _ => .init) fun _ _ _ _ inv stepped => inv.step stepped

end BandleCxl.Invariant
