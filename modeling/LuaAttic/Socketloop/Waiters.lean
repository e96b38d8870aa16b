import LuaAttic.Socketloop.Closing

/-!
# The threads that wait

The maps hold one thread for a socket and a direction.  A thread that comes to
wait where another one waits takes its place, and the other one is not resumed
any more.
-/

namespace LuaAttic.Socketloop

open LuaAttic.Support Function

variable {Thread Skt : Type*} [DecidableEq Thread] [DecidableEq Skt]

/-- Every thread suspended for a socket of the given kind is registered for
it. -/
def WaitersRegistered (kind : SocketStatus → Prop) (s : State Thread Skt) :
    Prop :=
  ∀ thread rwt skt, s.threads thread = .waiting rwt skt →
    kind (s.sockets skt) → s.rwt rwt skt = some thread

/-- Nobody waits where a thread comes to wait for a socket of the given kind,
nor, if the kind includes closed sockets, for a socket that is closed. -/
def FindsFree (kind : SocketStatus → Prop) (s : State Thread Skt)
    (a : Action Thread Skt) : Prop :=
  Enabled s a →
    match a with
    | .accept skt | .receive skt =>
        kind (s.sockets skt) → s.rwt .read skt = none
    | .send skt => kind (s.sockets skt) → s.rwt .write skt = none
    | .close skt => kind .closed → ∀ rwt, s.rwt rwt skt = none
    | _ => True

/-! ## New sockets -/

/-- A socket that has not been made is nowhere to be found. -/
def Made (s : State Thread Skt) : Prop :=
  ∀ skt, s.sockets skt = .unmade →
    (∀ rwt, s.rwt rwt skt = none) ∧ (∀ holder, s.holds holder skt = false) ∧
      ∀ thread rwt, s.threads thread ≠ .waiting rwt skt

section Made

variable {s s' : State Thread Skt} {skt : Skt}

omit [DecidableEq Thread] in
theorem leave_sockets_cases (s : State Thread Skt) (skt : Skt) :
    s.leave.sockets skt = s.sockets skt ∨ s.leave.sockets skt = .closed := by
  unfold State.leave State.endWake
  split
  · split_ifs
    · exact Or.inl rfl
    · rename_i skt' _ _ _ _
      by_cases hskt : skt = skt'
      · exact Or.inr (hskt ▸ update_self _ _ _)
      · exact Or.inl (update_of_ne hskt _ _)
  · exact Or.inl rfl

omit [DecidableEq Thread] in
theorem leave_unmade (h : s.leave.sockets skt = .unmade) :
    s.sockets skt = .unmade := by
  rcases leave_sockets_cases s skt with hsame | hclosed
  · exact hsame ▸ h
  · exact nomatch hclosed.symm.trans h

omit [DecidableEq Thread] in
theorem Made.leave (h : Made s) : Made s.leave := by
  intro skt hskt
  rw [State.leave_rwt, State.leave_holds, State.leave_threads]
  exact h skt (leave_unmade hskt)

omit [DecidableEq Skt] in
/-- A thread that runs or has ended waits for nothing. -/
theorem Made.setStatus (h : Made s) (thread : Thread)
    {status : ThreadStatus Skt} (hstatus : ∀ rwt skt, s.sockets skt = .unmade →
      status ≠ .waiting rwt skt) : Made (s.setStatus thread status) := by
  intro skt hskt
  refine ⟨(h skt hskt).1, (h skt hskt).2.1, fun thread' rwt => ?_⟩
  by_cases heq : thread' = thread
  · subst heq
    rw [State.setStatus_threads, update_self]
    exact hstatus rwt skt hskt
  · rw [State.setStatus_threads, update_of_ne heq]
    exact (h skt hskt).2.2 thread' rwt

omit [DecidableEq Thread] in
theorem Made.setRwt (h : Made s) (rwt : Dir) (skt : Skt) {o : Option Thread}
    (hskt : s.sockets skt = .unmade → o = none) : Made (s.setRwt rwt skt o) := by
  intro skt' hunmade
  refine ⟨fun rwt' => ?_, (h skt' hunmade).2⟩
  rw [State.setRwt_rwt]
  split_ifs with hslot
  · exact hskt (hslot.2 ▸ hunmade)
  · exact (h skt' hunmade).1 rwt'

theorem Made.wait (h : Made s) (rwt : Dir) (hskt : s.sockets skt ≠ .unmade) :
    Made (s.wait rwt skt) := by
  unfold State.wait
  split
  · rename_i thread _
    have hrwt : Made (s.setRwt rwt skt (some thread)) :=
      h.setRwt rwt skt (fun hunmade => absurd hunmade hskt)
    refine (hrwt.setStatus thread ?_).leave
    rintro _ _ hunmade ⟨⟩
    exact hskt hunmade
  · exact h

theorem Made.finish (h : Made s) : Made s.finish := by
  unfold State.finish
  split
  · rename_i thread _
    have hdead : Made (s.setStatus thread .dead) :=
      h.setStatus thread (fun _ _ _ => nofun)
    exact hdead.leave
  · exact h

omit [DecidableEq Skt] in
theorem Made.raise (h : Made s) : Made s.raise := by
  unfold State.raise
  split
  · rename_i thread _
    have hdead : Made (s.setStatus thread .dead) :=
      h.setStatus thread (fun _ _ _ => nofun)
    dsimp only
    split_ifs
    · exact fun skt hunmade => hdead skt hunmade
    · exact fun skt hunmade => hdead skt hunmade
  · exact h

theorem Made.wakeNext (h : Made s) : Made s.wakeNext := by
  unfold State.wakeNext
  split
  · rename_i rwt skt pending _
    split
    · rename_i thread _
      have hrwt := h.setRwt rwt skt (o := none) (fun _ => rfl)
      have hrun : Made ((s.setRwt rwt skt none).setStatus thread .running) :=
        hrwt.setStatus thread (fun _ _ _ => nofun)
      exact fun skt hunmade => hrun skt hunmade
    · exact fun skt hunmade => h skt hunmade
  · exact fun skt hunmade => h skt hunmade

theorem setHolds_holds {holder holder' : Option Thread} {skt' : Skt} {b : Bool} :
    (s.setHolds holder skt b).holds holder' skt' =
      if holder' = holder ∧ skt' = skt then b else s.holds holder' skt' := by
  by_cases hholder : holder' = holder
  · subst hholder
    by_cases hskt : skt' = skt
    · subst hskt
      simp [State.setHolds]
    · simp [State.setHolds, hskt]
  · simp [State.setHolds, hholder]

theorem Made.setHolds (h : Made s) (holder : Option Thread) {b : Bool}
    (hskt : s.sockets skt = .unmade → b = false) :
    Made (s.setHolds holder skt b) := by
  intro skt' hunmade
  refine ⟨(h skt' hunmade).1, fun holder' => ?_, (h skt' hunmade).2.2⟩
  rw [setHolds_holds]
  split_ifs with hslot
  · exact hskt (hslot.2 ▸ hunmade)
  · exact (h skt' hunmade).2.1 holder'

omit [DecidableEq Thread] in
theorem Made.setSocket (h : Made s) (skt : Skt) {status : SocketStatus}
    (hstatus : status ≠ .unmade) : Made (s.setSocket skt status) := by
  intro skt' hunmade
  have hne : skt' ≠ skt := by
    rintro rfl
    rw [State.setSocket_sockets, update_self] at hunmade
    exact hstatus hunmade
  rw [State.setSocket_sockets, update_of_ne hne] at hunmade
  exact h skt' hunmade

theorem newSocket_sockets (s : State Thread Skt) (skt : Skt) :
    (s.newSocket skt).sockets skt ≠ .unmade := by
  simp [State.newSocket, State.setHolds]

theorem Made.newSocket (h : Made s) (skt : Skt) : Made (s.newSocket skt) := by
  have hopened : Made (s.setSocket skt .opened) := h.setSocket skt nofun
  refine hopened.setHolds s.running (fun hunmade => ?_)
  exact absurd hunmade (newSocket_sockets s skt)

theorem made_step (h : Made s) (a : Action Thread Skt) : Made (step s a) := by
  by_cases ha : Enabled s a
  · rw [step_of_enabled ha]
    -- what is held has been made
    have hheld : ∀ {skt}, s.holds s.running skt → s.sockets skt ≠ .unmade := by
      intro skt hholds hunmade
      exact absurd hholds (by rw [(h skt hunmade).2.1]; decide)
    cases a with
    | newthread thread args =>
        have hrun : Made (s.setStatus thread .running) :=
          h.setStatus thread (fun _ _ _ => nofun)
        intro skt hunmade
        refine ⟨(hrun skt hunmade).1, fun holder => ?_, (hrun skt hunmade).2.2⟩
        by_cases hholder : holder = some thread
        · subst hholder
          have hargs : skt ∉ args := fun hmem =>
            hheld (ha.2.2 skt hmem) hunmade
          simpa [perform] using hargs
        · simpa [perform, hholder] using (h skt hunmade).2.1 holder
    | give holder skt =>
        exact h.setHolds holder (fun hunmade => absurd hunmade (hheld ha.2))
    | drop skt => exact h.setHolds s.running (fun _ => rfl)
    | tcp skt => exact h.newSocket skt
    | accept skt => exact h.wait .read (hheld ha.2)
    | receive skt => exact h.wait .read (hheld ha.2)
    | send skt => exact h.wait .write (hheld ha.2)
    | connect skt timeout =>
        cases timeout with
        | false => exact h.newSocket skt
        | true =>
            exact (h.newSocket skt).wait .write (newSocket_sockets s skt)
    | close skt =>
        have hrwt := h.setRwt .write skt (o := none) (fun _ => rfl)
        exact (hrwt.setRwt .read skt (fun _ => rfl)).setSocket skt nofun
    | finish => exact h.finish
    | raise => exact h.raise
    | dispatch reads writes => exact h
    | wake => exact h.wakeNext
  · rw [step_of_not_enabled ha]
    exact h

end Made

/-! ## Single steps -/

section Step

variable {kind : SocketStatus → Prop} {s s' : State Thread Skt}
  {a : Action Thread Skt}

omit [DecidableEq Thread] [DecidableEq Skt] in
/-- Those that still wait are still registered. -/
theorem WaitersRegistered.of_imp (hw : WaitersRegistered kind s)
    (h : ∀ thread rwt skt, s'.threads thread = .waiting rwt skt →
      kind (s'.sockets skt) →
      s.threads thread = .waiting rwt skt ∧ kind (s.sockets skt) ∧
        (s.rwt rwt skt = some thread → s'.rwt rwt skt = some thread)) :
    WaitersRegistered kind s' := by
  intro thread rwt skt hthread hskt
  obtain ⟨hthread', hskt', hrwt⟩ := h thread rwt skt hthread hskt
  exact hrwt (hw thread rwt skt hthread' hskt')

omit [DecidableEq Thread] in
theorem kind_of_leave (hkind : kind .closed → ∀ status, kind status)
    {skt : Skt} (h : kind (s.leave.sockets skt)) : kind (s.sockets skt) := by
  rcases leave_sockets_cases s skt with hsame | hclosed
  · exact hsame ▸ h
  · exact hkind (hclosed ▸ h) _

omit [DecidableEq Skt] in
/-- A thread that begins, ends or goes on waits for nothing. -/
theorem waiting_of_setStatus {thread thread' : Thread} {status : ThreadStatus Skt}
    {rwt : Dir} {skt : Skt}
    (h : (s.setStatus thread status).threads thread' = .waiting rwt skt)
    (hstatus : ∀ rwt skt, status ≠ .waiting rwt skt) :
    thread' ≠ thread ∧ s.threads thread' = .waiting rwt skt := by
  rw [State.setStatus_threads] at h
  by_cases heq : thread' = thread
  · subst heq
    rw [update_self] at h
    exact absurd h (hstatus rwt skt)
  · rw [update_of_ne heq] at h
    exact ⟨heq, h⟩

theorem WaitersRegistered.finish (hkind : kind .closed → ∀ status, kind status)
    (hw : WaitersRegistered kind s) : WaitersRegistered kind s.finish := by
  unfold State.finish
  split
  · refine hw.of_imp fun thread rwt skt hthread hskt => ?_
    rw [State.leave_threads] at hthread
    rw [State.leave_rwt]
    have hleft := kind_of_leave hkind hskt
    exact ⟨(waiting_of_setStatus hthread (fun _ _ => nofun)).2, hleft, id⟩
  · exact hw

omit [DecidableEq Skt] in
theorem WaitersRegistered.raise (hw : WaitersRegistered kind s) :
    WaitersRegistered kind s.raise := by
  unfold State.raise
  split
  · rename_i thread _
    have hdead : WaitersRegistered kind (s.setStatus thread .dead) :=
      hw.of_imp fun _ _ _ hthread hskt =>
        ⟨(waiting_of_setStatus hthread (fun _ _ => nofun)).2, hskt, id⟩
    dsimp only
    split_ifs
    · exact hdead.of_imp fun _ _ _ hthread hskt => ⟨hthread, hskt, id⟩
    · exact hdead.of_imp fun _ _ _ hthread hskt => ⟨hthread, hskt, id⟩
  · exact hw

theorem WaitersRegistered.wakeNext (hw : WaitersRegistered kind s) :
    WaitersRegistered kind s.wakeNext := by
  unfold State.wakeNext
  split
  · rename_i rwt skt pending _
    split
    · rename_i thread hthread
      refine hw.of_imp fun thread' rwt' skt' hwait hskt => ?_
      obtain ⟨hne, hwait'⟩ := waiting_of_setStatus (s := s.setRwt rwt skt none)
        hwait (fun _ _ => nofun)
      refine ⟨hwait', hskt, fun hreg => ?_⟩
      refine (State.setRwt_rwt (s := s)).trans ?_
      rw [if_neg, hreg]
      rintro ⟨rfl, rfl⟩
      exact hne (Option.some.inj (hreg.symm.trans hthread))
    · exact hw.of_imp fun _ _ _ hthread hskt => ⟨hthread, hskt, id⟩
  · exact hw.of_imp fun _ _ _ hthread hskt => ⟨hthread, hskt, id⟩

/-- A thread that waits finds its place free, or drives somebody out. -/
theorem wait_registered_iff (hkind : kind .closed → ∀ status, kind status)
    (h : Inv s) (hw : WaitersRegistered kind s) (hne : s.stack ≠ [])
    (rwt : Dir) (skt : Skt) :
    WaitersRegistered kind (s.wait rwt skt) ↔
      (kind (s.sockets skt) → s.rwt rwt skt = none) := by
  obtain ⟨thread, stack, hstack⟩ := List.exists_cons_of_ne_nil hne
  have hthreads : (s.wait rwt skt).threads =
      update s.threads thread (.waiting rwt skt) := by
    rw [State.wait_eq hstack, State.leave_threads]
    rfl
  have hrwt : ∀ rwt' skt', (s.wait rwt skt).rwt rwt' skt' =
      if rwt' = rwt ∧ skt' = skt then some thread else s.rwt rwt' skt' := by
    intro rwt' skt'
    rw [State.wait_eq hstack, State.leave_rwt]
    exact State.setRwt_rwt
  have hself : (s.wait rwt skt).sockets skt = s.sockets skt := by
    have hclosed : (s.wait rwt skt).sockets skt = .closed ↔ _ :=
      State.wait_closed_iff hstack rwt
    rw [State.wait_eq hstack] at hclosed ⊢
    rcases leave_sockets_cases _ skt with hsame | hleft
    · exact hsame
    · have hbefore := hclosed.mp hleft
      simp only [true_or, not_true_eq_false, and_false, or_false] at hbefore
      rw [hleft, hbefore]
  constructor
  · intro hafter hskt
    cases hreg : s.rwt rwt skt with
    | none => rfl
    | some t =>
        have hmem : thread ∈ s.stack := hstack ▸ List.mem_cons_self
        have hother : t ≠ thread := h.ne_of_registered hreg hmem
        have hstill : (s.wait rwt skt).threads t = .waiting rwt skt := by
          rw [hthreads, update_of_ne hother]
          exact h.waiting rwt skt t hreg
        have htaken := hafter t rwt skt hstill (hself ▸ hskt)
        rw [hrwt, if_pos ⟨rfl, rfl⟩] at htaken
        exact absurd (Option.some.inj htaken).symm hother
  · intro hfree t rwt' skt' hwait hskt
    rw [hthreads] at hwait
    rw [hrwt]
    by_cases ht : t = thread
    · subst ht
      rw [update_self] at hwait
      cases hwait
      rw [if_pos ⟨rfl, rfl⟩]
    · rw [update_of_ne ht] at hwait
      have hbefore : kind (s.sockets skt') := by
        rw [State.wait_eq hstack] at hskt
        have hleft := kind_of_leave hkind hskt
        exact hleft
      have hreg := hw t rwt' skt' hwait hbefore
      rw [if_neg, hreg]
      rintro ⟨rfl, rfl⟩
      exact nomatch hreg.symm.trans (hfree hbefore)

/-- What the threads that wait for a socket lose when it is closed. -/
theorem close_registered_iff (hkind : kind .closed → ∀ status, kind status)
    (h : Inv s) (hw : WaitersRegistered kind s) (skt : Skt) :
    WaitersRegistered kind (perform s (.close skt)) ↔
      (kind .closed → ∀ rwt, s.rwt rwt skt = none) := by
  have hrwt : ∀ rwt skt', (perform s (.close skt)).rwt rwt skt' =
      if skt' = skt then none else s.rwt rwt skt' := by
    intro rwt skt'
    refine (State.setRwt_rwt (s := s.setRwt .write skt none)).trans ?_
    rw [State.setRwt_rwt]
    cases rwt <;> simp
  have hsockets : (perform s (.close skt)).sockets =
      update s.sockets skt .closed := rfl
  constructor
  · intro hafter hclosed rwt
    cases hreg : s.rwt rwt skt with
    | none => rfl
    | some t =>
        have hkindskt : kind ((perform s (.close skt)).sockets skt) := by
          rw [hsockets, update_self]
          exact hclosed
        have hlost := hafter t rwt skt (h.waiting rwt skt t hreg) hkindskt
        rw [hrwt, if_pos rfl] at hlost
        exact hlost.symm
  · intro hfree
    refine hw.of_imp fun t rwt skt' hwait hskt => ⟨hwait, ?_, fun hreg => ?_⟩
    · by_cases hne : skt' = skt
      · rw [hsockets, hne, update_self] at hskt
        exact hkind hskt _
      · rwa [hsockets, update_of_ne hne] at hskt
    · rw [hrwt, if_neg, hreg]
      rintro rfl
      rw [hsockets, update_self] at hskt
      exact nomatch hreg.symm.trans (hfree hskt rwt)

/-- A new socket has nobody waiting for it. -/
theorem WaitersRegistered.newSocket (hm : Made s)
    (hw : WaitersRegistered kind s) {skt : Skt} (hskt : s.sockets skt = .unmade) :
    WaitersRegistered kind (s.newSocket skt) := by
  refine hw.of_imp fun t rwt skt' hwait hkindskt => ⟨hwait, ?_, id⟩
  have hne : skt' ≠ skt := by
    rintro rfl
    exact (hm skt' hskt).2.2 t rwt hwait
  have hsame : (s.newSocket skt).sockets skt' = s.sockets skt' :=
    update_of_ne hne _ _
  exact hsame ▸ hkindskt

/-- Exactly the steps that drop no thread that waits. -/
theorem waitersRegistered_step_iff
    (hkind : kind .closed → ∀ status, kind status) (h : Inv s) (hm : Made s)
    (hw : WaitersRegistered kind s) :
    WaitersRegistered kind (step s a) ↔ FindsFree kind s a := by
  by_cases ha : Enabled s a
  · rw [step_of_enabled ha]
    have hfree : ∀ P : Prop, (Enabled s a → P) ↔ P :=
      fun P => ⟨fun hP => hP ha, fun hP _ => hP⟩
    cases a with
    | accept skt =>
        exact (wait_registered_iff hkind h hw ha.1 .read skt).trans (hfree _).symm
    | receive skt =>
        exact (wait_registered_iff hkind h hw ha.1 .read skt).trans (hfree _).symm
    | send skt =>
        exact (wait_registered_iff hkind h hw ha.1 .write skt).trans (hfree _).symm
    | close skt =>
        exact (close_registered_iff hkind h hw skt).trans (hfree _).symm
    | newthread thread args =>
        refine iff_of_true ?_ (fun _ => trivial)
        exact hw.of_imp fun _ _ _ hwait hskt =>
          ⟨(waiting_of_setStatus hwait (fun _ _ => nofun)).2, hskt, id⟩
    | give | drop | dispatch =>
        refine iff_of_true ?_ (fun _ => trivial)
        exact hw.of_imp fun _ _ _ hwait hskt => ⟨hwait, hskt, id⟩
    | tcp skt => exact iff_of_true (hw.newSocket hm ha.2) (fun _ => trivial)
    | connect skt timeout =>
        refine iff_of_true ?_ (fun _ => trivial)
        have hnew := hw.newSocket hm ha.2.1
        cases timeout with
        | false => exact hnew
        | true =>
            have hinv : Inv (s.newSocket skt) := h.congr rfl rfl rfl rfl
            refine (wait_registered_iff hkind hinv hnew (ha.2.2 rfl) _ _).mpr ?_
            exact fun _ => (hm skt ha.2.1).1 .write
    | finish => exact iff_of_true (hw.finish hkind) (fun _ => trivial)
    | raise => exact iff_of_true hw.raise (fun _ => trivial)
    | wake => exact iff_of_true (hw.wakeNext) (fun _ => trivial)
  · rw [step_of_not_enabled ha]
    exact iff_of_true hw (fun hen => absurd hen ha)

/-- A thread that is registered is resumed when `dispatch` comes to its
socket. -/
theorem resumed_of_registered {thread : Thread} {rwt : Dir} {skt : Skt}
    {pending : List (Dir × Skt)} (hmain : s.stack = [])
    (hready : s.pending = some ((rwt, skt) :: pending))
    (hreg : s.rwt rwt skt = some thread) :
    (step s .wake).running = some thread ∧
      (step s .wake).threads thread = .running := by
  have ha : Enabled s .wake := ⟨hmain, by rw [hready]; exact nofun⟩
  have hwake : perform s .wake =
      { s.resume thread rwt skt with
        waking := some (skt, thread), pending := some pending } := by
    simp [perform, State.wakeNext, hready, hreg]
  rw [step_of_enabled ha, hwake]
  exact ⟨rfl, update_self _ _ _⟩

end Step

/-! ## Runs -/

omit [DecidableEq Thread] [DecidableEq Skt] in
theorem init_made : Made (.init : State Thread Skt) :=
  fun _ _ => ⟨fun _ => rfl, fun _ => rfl, fun _ _ => nofun⟩

theorem runs_registered_iff {kind : SocketStatus → Prop}
    (hkind : kind .closed → ∀ status, kind status)
    (actions : List (Action Thread Skt)) :
    AllAllowed step (fun s a => WaitersRegistered kind (step s a)) actions
        .init ↔
      AllAllowed step (FindsFree kind) actions .init :=
  allAllowed_iff_of_invariant
    (fun s => Inv s ∧ Made s ∧ WaitersRegistered kind s)
    (fun _ a h hw => ⟨inv_step h.1 a, made_step h.2.1 a, hw⟩)
    (fun _ _ h => waitersRegistered_step_iff hkind h.1 h.2.1 h.2.2)
    ⟨inv_init, init_made, fun _ _ _ => nofun⟩

/-- In every run of the loop, each thread suspended for an open socket is
registered in every state exactly when no thread comes to wait where another
one waits; and so is each suspended thread exactly when, besides, no socket is
closed for which one waits. -/
theorem loses_no_waiter_iff (actions : List (Action Thread Skt)) :
    (AllAllowed step (fun s a => WaitersRegistered (· = .opened) (step s a))
        actions .init ↔
      AllAllowed step (FindsFree (· = .opened)) actions .init) ∧
    (AllAllowed step (fun s a => WaitersRegistered (fun _ => True) (step s a))
        actions .init ↔
      AllAllowed step (FindsFree fun _ => True) actions .init) :=
  ⟨runs_registered_iff (fun h => nomatch h) actions,
    runs_registered_iff (fun _ _ => trivial) actions⟩

/-- Two threads that wait to read from the same socket, of which the first is
dropped, and one whose socket is closed by the main thread. -/
theorem loses_waiters :
    let s : State ℕ ℕ := run step [.tcp 0, .newthread 0 [0], .receive 0,
      .newthread 1 [0], .receive 0] .init
    let s' : State ℕ ℕ := run step [.tcp 0, .newthread 0 [0], .receive 0,
      .close 0] .init
    (s.threads 0 = .waiting .read 0 ∧ s.sockets 0 = .opened ∧
        s.rwt .read 0 = some 1 ∧ ¬ WaitersRegistered (· = .opened) s) ∧
      (s'.threads 0 = .waiting .read 0 ∧ s'.rwt .read 0 = none ∧
        ¬ WaitersRegistered (fun _ => True) s') := by
  intro s s'
  have hthread : s.threads 0 = .waiting .read 0 := by decide
  have hopen : s.sockets 0 = .opened := by decide
  have hrwt : s.rwt .read 0 = some 1 := by decide
  have hthread' : s'.threads 0 = .waiting .read 0 := by decide
  have hrwt' : s'.rwt .read 0 = none := by decide
  refine ⟨⟨hthread, hopen, hrwt, fun hw => ?_⟩, hthread', hrwt', fun hw => ?_⟩
  · exact nomatch hrwt.symm.trans (hw 0 .read 0 hthread hopen)
  · exact nomatch hrwt'.symm.trans (hw 0 .read 0 hthread' trivial)

end LuaAttic.Socketloop
