import CodeTest.Net.Clients

/-!
# One-shot clients are armed again

The clients are registered with `EPOLLONESHOT`, so an event that is reported disarms its client, and
the handling of the event has to arm it again or to close it. `Receive` does neither when `recv`
answers `0`, and the loop does nothing for an event that is neither `EPOLLIN` nor `EPOLLOUT`. Apart
from these, and from calls of `epoll_ctl` that fail, every open client is armed or has an event that
is still to be handled, in every state of every run.
-/

namespace CodeTest.Net

namespace EventLoop

open Connection

/-- The descriptor is armed in epoll. -/
def Armed (s : EventLoop) (fd : ℤ) : Prop :=
  ∃ ptr mask, s.interest.lookup fd = some ⟨ptr, some mask⟩

/-- An event of the descriptor was reported and is still to be handled. -/
def AboutToBeHandled (s : EventLoop) (fd : ℤ) : Prop :=
  ∃ user events, (some user, events) ∈ s.pending ∧ s.descriptors[user]?.map Prod.fst = some fd

/-- No open client is forgotten. -/
def Served (s : EventLoop) : Prop :=
  ∀ fd, s.files.lookup fd = some .client → s.Armed fd ∨ s.AboutToBeHandled fd

/-- How a call of `Receive` is expected to have returned: it has armed the client again, and has run
the receive callback if any byte was stored, or it has closed the client and removed it from the
socket map. -/
def Returned (s : EventLoop) (user : ℕ) (fd : ℤ) : Prop :=
  (.epollCtl fd true ∈ s.actions ∧ s.Armed fd ∧
      ((∃ bytes, .stored fd bytes ∈ s.actions) → .callback .receive (some user) ∈ s.actions)) ∨
    (s.files.lookup fd = none ∧ s.getSocketUser fd = none)

/-- The calls of `recv` end with `-1`. -/
def endsInError : List RecvResult → Bool
  | [] => false
  | .error :: _ => true
  | .eof :: _ => false
  | .data _ :: results => endsInError results

/-- The event of a client that is handled is `EPOLLIN` or `EPOLLOUT`, and the calls of `recv` end
with `-1`. -/
def Answered (s : EventLoop) : LoopEvent → Prop
  | .dispatch results _ => ∀ p ∈ s.pending.head?, p.1.isSome →
    (p.2.epollin ∨ p.2.epollout) ∧ (p.2.epollin ∧ ¬ p.2.epollrdhup → endsInError results)
  | _ => True

instance (s : EventLoop) : ∀ e, Decidable (s.Answered e)
  | .dispatch results _ => inferInstanceAs (Decidable (∀ p ∈ s.pending.head?, p.1.isSome →
      (p.2.epollin ∨ p.2.epollout) ∧ (p.2.epollin ∧ ¬ p.2.epollrdhup → endsInError results)))
  | .wait _ => isTrue trivial
  | .accept .. => isTrue trivial
  | .send .. => isTrue trivial
  | .disconnect .. => isTrue trivial

/-- No call of `epoll_ctl` fails, and what is handled is answered. -/
def Careful (s : EventLoop) (e : LoopEvent) : Prop := s.NoFailure e ∧ s.Answered e

instance (s : EventLoop) (e : LoopEvent) : Decidable (s.Careful e) :=
  inferInstanceAs (Decidable (_ ∧ _))

/-! ## A call of `Receive` -/

section Receive

variable {s : EventLoop} {user : ℕ} {nt : NetThreadLinux} {ctl : ℤ}

theorem stored_of_mem_store {socketUser : ℕ} {fd : ℤ} {bytes : List UInt8} {a : NetAction}
    (ha : a ∈ (s.store socketUser fd bytes).actions) :
    a ∈ s.actions ∨ ∃ bytes, a = .stored fd bytes := by
  unfold store at ha
  split at ha
  · exact .inl ha
  · dsimp only at ha
    split_ifs at ha
    · rcases List.mem_append.mp ha with ha | ha
      · exact .inl ha
      · exact .inr ⟨bytes, List.mem_singleton.mp ha⟩
    · exact .inl ha

variable (user ctl) in
/-- The chunks of a registered client are stored, and the loop of `Receive` goes on. -/
theorem receive_chunks {socketUser : ℕ} (hmap : s.getSocketUser nt.fdSocket = some socketUser)
    (chunks : List (List UInt8)) (results : List RecvResult) :
    ∃ s₁, Alike s s₁ ∧ (s₁.Failed ↔ s.Failed) ∧
      (∀ a ∈ s₁.actions, a ∈ s.actions ∨ ∃ bytes, a = .stored nt.fdSocket bytes) ∧
      s.receive user nt ctl (chunks.map .data ++ results) = s₁.receive user nt ctl results := by
  induction chunks generalizing s with
  | nil => exact ⟨s, .refl s, .rfl, fun a ha => .inl ha, rfl⟩
  | cons chunk chunks ih =>
    obtain ⟨halike, hfailed⟩ := alike_store s socketUser nt.fdSocket (terminate chunk)
    obtain ⟨s₁, halike₁, hfailed₁, hactions, heq⟩ := ih ((halike.getSocketUser _).trans hmap)
    refine ⟨s₁, halike.trans halike₁, hfailed₁.trans hfailed, ?_, ?_⟩
    · intro a ha
      rcases hactions a ha with ha | hstored
      · exact stored_of_mem_store ha
      · exact .inr hstored
    · rw [List.map_cons, List.cons_append, receive, hmap]
      exact heq

theorem exists_of_endsInError {results : List RecvResult} (h : endsInError results = true) :
    ∃ (chunks : List (List UInt8)) (rest : List RecvResult),
      results = chunks.map .data ++ .error :: rest := by
  induction results with
  | nil => cases h
  | cons result results ih =>
    cases result with
    | error => exact ⟨[], results, rfl⟩
    | eof => cases h
    | data chunk =>
      obtain ⟨chunks, rest, rfl⟩ := ih h
      exact ⟨chunk :: chunks, rest, rfl⟩

/-- A call for a client that does not fail arms it. -/
theorem armed_of_not_failed {events : List EpollFlag}
    (h : ¬ (s.handleSocketListener user nt events 0 ctl).2.Failed) :
    (s.handleSocketListener user nt events 0 ctl).2.Armed nt.fdSocket := by
  by_cases hok : 0 ≤ ctl ∧ s.CtlPossible nt 0
  · rw [handleSocketListener_of_possible s hok.1 hok.2]
    exact ⟨some user, events, AList.lookup_insert _⟩
  · exact absurd (broken_of_failed s user events hok).1 h

/-- **A call of `Receive`** for a client returns as expected if and only if the calls of `recv` end
with `-1` and the call of `epoll_ctl` is successful. -/
theorem Inv.returned_iff (h : s.Inv) {u : CSocketUser} (hu : s.users[user]? = some u)
    (hmap : s.getSocketUser u.nt.fdSocket = some user) (hactions : s.actions = [])
    (chunks : List (List UInt8)) {last : RecvResult} (hlast : last = .eof ∨ last = .error) :
    (s.receive user u.nt ctl (chunks.map .data ++ [last])).Returned user u.nt.fdSocket ↔
      last = .error ∧ 0 ≤ ctl := by
  obtain ⟨s₁, halike, -, hstored, heq⟩ := receive_chunks user ctl hmap chunks [last]
  have hmap₁ : s₁.getSocketUser u.nt.fdSocket = some user := (halike.getSocketUser _).trans hmap
  have hclient : s.files.lookup u.nt.fdSocket = some .client :=
    (h.mapped _).mp (Option.isSome_of_eq_some hmap)
  have hnot : .epollCtl u.nt.fdSocket true ∉ s₁.actions := by
    intro hmem
    rcases hstored _ hmem with hmem | ⟨bytes, hbytes⟩
    · rw [hactions] at hmem
      cases hmem
    · cases hbytes
  rw [heq]
  rcases hlast with rfl | rfl
  · -- `Receive` returns without a word
    apply iff_of_false
    · rintro (⟨hmem, -⟩ | ⟨hclosed, -⟩)
      · exact hnot hmem
      · rw [receive, halike.files, hclient] at hclosed
        cases hclosed
    · rintro ⟨hlast, -⟩
      cases hlast
  · rw [receive]
    by_cases hctl : 0 ≤ ctl
    · obtain ⟨user', armed, hinterest, -⟩ := h.registered _ hclient
      have hpossible : s₁.CtlPossible u.nt 0 := by
        rw [halike.ctlPossible, CtlPossible, (h.user_nt hu).2.1, hclient, hinterest]
        exact ⟨rfl, h.epoll, rfl, by simp⟩
      rw [handleSocketListener_of_possible s₁ hctl hpossible]
      apply iff_of_true
      · refine .inl ⟨by simp [act], ⟨some user, _, AList.lookup_insert _⟩, fun _ => ?_⟩
        have huser : s₁.allSocketMap.lookup u.nt.fdSocket = some user := hmap₁
        simp [act, getSocketUser, huser]
      · exact ⟨rfl, hctl⟩
    · -- the client is closed, and stays in the socket map
      rw [handleSocketListener_of_failed s₁ fun hok => hctl hok.1]
      apply iff_of_false
      · rintro (⟨hmem, -⟩ | ⟨-, hremoved⟩)
        · simp [act, close, hnot] at hmem
        · have huser : s₁.getSocketUser u.nt.fdSocket = none := hremoved
          rw [hmap₁] at huser
          cases huser
      · exact fun hok => hctl hok.2

/-- The event of an open client that is handled arms the client again or closes it. -/
theorem Inv.handled (h : s.Inv) {u : CSocketUser} (hu : s.users[user]? = some u)
    (hclient : s.files.lookup u.nt.fdSocket = some .client) {events : EpollEvents}
    {results : List RecvResult} (hevents : events.epollin ∨ events.epollout)
    (hresults : events.epollin ∧ ¬ events.epollrdhup → endsInError results)
    (hok : ¬ (s.handle user u.nt events results ctl).Failed) :
    (s.handle user u.nt events results ctl).Armed u.nt.fdSocket ∨
      (s.handle user u.nt events results ctl).files.lookup u.nt.fdSocket = none := by
  obtain ⟨socketUser, hmap⟩ := Option.isSome_iff_exists.mp ((h.mapped _).mpr hclient)
  change s.getSocketUser u.nt.fdSocket = some socketUser at hmap
  unfold handle at hok ⊢
  rw [if_neg (h.user_nt hu).2.2.2] at hok ⊢
  split_ifs at hok ⊢ with hin hrdhup hout
  · right
    exact AList.lookup_erase _ _
  · left
    obtain ⟨chunks, rest, rfl⟩ := exists_of_endsInError (hresults ⟨hin, hrdhup⟩)
    obtain ⟨s₁, -, -, -, heq⟩ := receive_chunks user ctl hmap chunks (.error :: rest)
    rw [heq, receive] at hok ⊢
    exact armed_of_not_failed fun hfailed => hok ((failed_act _ _).mpr (.inl hfailed))
  · left
    simp only [writeable, hmap] at hok ⊢
    exact armed_of_not_failed fun hfailed => hok ((failed_act _ _).mpr (.inl hfailed))
  · simp [hin, hout] at hevents

end Receive

/-! ## No open client is forgotten -/

section Served

variable {s s' : EventLoop} {fd : ℤ}

/-- A descriptor is armed or about to be handled. -/
def Attended (s : EventLoop) (fd : ℤ) : Prop := s.Armed fd ∨ s.AboutToBeHandled fd

theorem Attended.alike (h : s.Attended fd) (ha : Alike s s') : s'.Attended fd := by
  rcases h with ⟨ptr, mask, hinterest⟩ | ⟨user, events, hmem, hfd⟩
  · exact .inl ⟨ptr, mask, ha.interest ▸ hinterest⟩
  · exact .inr ⟨user, events, ha.pending ▸ hmem, ha.descriptors ▸ hfd⟩

/-- A client that stays open stays attended to. -/
theorem Attended.effect (h : s.Attended fd) (he : Effect s s')
    (hclient : s'.files.lookup fd = some .client) : s'.Attended fd := by
  cases he with
  | quiet ha => exact h.alike ha
  | armed user fd' mask hfd' hopen ha =>
    refine Attended.alike ?_ ha
    rcases h with ⟨ptr, mask', hinterest⟩ | hhandled
    · by_cases heq : fd = fd'
      · subst heq
        exact .inl ⟨some user, mask, AList.lookup_insert _⟩
      · exact .inl ⟨ptr, mask', (AList.lookup_insert_ne heq).trans hinterest⟩
    · exact .inr hhandled
  | closed user fd' hfd' ha =>
    have hne : fd ≠ fd' := by
      rintro rfl
      rw [ha.files] at hclient
      exact absurd hclient (by simp [AList.lookup_erase])
    refine Attended.alike ?_ ha
    rcases h with ⟨ptr, mask', hinterest⟩ | hhandled
    · exact .inl ⟨ptr, mask', (AList.lookup_erase_ne hne).trans hinterest⟩
    · exact .inr hhandled

/-- An effect opens no client. -/
theorem Effect.client (he : Effect s s') (hclient : s'.files.lookup fd = some .client) :
    s.files.lookup fd = some .client := by
  cases he with
  | quiet ha => rwa [ha.files] at hclient
  | armed user fd' mask hfd' hopen ha => rwa [ha.files] at hclient
  | closed user fd' hfd' ha =>
    rw [ha.files] at hclient
    simp only [Table.lookup_erase_eq] at hclient
    split_ifs at hclient
    exact hclient

theorem Served.outcome (h : s.Served) (ho : Outcome s s') (hok : ¬ s'.Failed) : s'.Served := by
  rcases ho with ⟨hfailed, -⟩ | ⟨-, heffect⟩
  · exact absurd hfailed hok
  · intro fd hclient
    exact Attended.effect (h fd (heffect.client hclient)) heffect hclient

/-- A report disarms the clients whose events it adds to those that are to be handled. -/
theorem Served.report (h : s.Served) (hinv : s.Inv) (ready : List (ℤ × EpollEvents)) :
    (s.report ready).Served := by
  induction ready generalizing s with
  | nil => exact h
  | cons r ready ih =>
    obtain ⟨fd, events⟩ := r
    rw [EventLoop.report]
    split
    · rename_i ptr mask hlookup
      have hinv' : ({ s with
          pending := s.pending ++ [(ptr, events)]
          interest := if EpollFlag.epolloneshot ∈ mask then s.interest.insert fd ⟨ptr, none⟩
            else s.interest } : EventLoop).Inv := by
        split_ifs
        · exact (hinv.of_disarmed hlookup).of_pending _
        · exact hinv.of_pending _
      refine ih ?_ hinv'
      intro fd' hclient
      by_cases heq : fd' = fd
      · subst heq
        obtain ⟨user, armed, hinterest, huser⟩ := hinv.registered fd' hclient
        rw [hlookup] at hinterest
        cases hinterest
        refine .inr ⟨user, events, by simp, ?_⟩
        exact (congrArg (Option.map Prod.fst) huser).trans rfl
      · rcases h fd' hclient with ⟨ptr', mask', hinterest⟩ | ⟨user, events', hmem, hfd⟩
        · refine .inl ⟨ptr', mask', ?_⟩
          show (if _ then _ else _ : Table ℤ Registration).lookup fd' = _
          split_ifs
          · rw [AList.lookup_insert_ne heq, hinterest]
          · exact hinterest
        · exact .inr ⟨user, events', List.mem_append_left _ hmem, hfd⟩
    · exact ih h hinv

/-- The event that is taken out was one of its own client only. -/
theorem Attended.of_pending {p : Option ℕ × EpollEvents} {pending : List (Option ℕ × EpollEvents)}
    (hpending : s.pending = p :: pending) (h : s.Attended fd)
    (hother : ∀ user ∈ p.1, s.descriptors[user]?.map Prod.fst ≠ some fd) :
    ({ s with pending } : EventLoop).Attended fd := by
  rcases h with harmed | ⟨user, events, hmem, hfd⟩
  · exact .inl harmed
  · rw [hpending] at hmem
    rcases List.mem_cons.mp hmem with rfl | hmem
    · exact absurd hfd (hother user rfl)
    · exact .inr ⟨user, events, hmem, hfd⟩

theorem Served.dispatch (h : s.Served) (hinv : s.Inv) {results : List RecvResult} {ctl : ℤ}
    (hanswered : s.Answered (.dispatch results ctl)) (hok : ¬ (s.dispatch results ctl).Failed) :
    (s.dispatch results ctl).Served := by
  cases hpending : s.pending with
  | nil => simpa only [EventLoop.dispatch, hpending] using h
  | cons p pending =>
    obtain ⟨ptr, events⟩ := p
    cases ptr with
    | none =>
      simp only [EventLoop.dispatch, hpending]
      intro fd hclient
      exact Attended.of_pending hpending (h fd hclient) (by simp)
    | some user =>
      cases hu : s.users[user]? with
      | none =>
        simp only [EventLoop.dispatch, hpending, hu]
        intro fd hclient
        refine Attended.of_pending hpending (h fd hclient) ?_
        rintro user' ⟨⟩
        simp [descriptors, hu]
      | some u =>
        simp only [EventLoop.dispatch, hpending, hu] at hok ⊢
        obtain ⟨hevents, hresults⟩ := hanswered (some user, events) (by rw [hpending]; rfl) rfl
        have hinv' := hinv.of_pending pending
        rcases hinv'.outcome_handle hu events results ctl with ⟨hfailed, -⟩ | ⟨-, heffect⟩
        · exact absurd hfailed hok
        intro fd hclient
        have hclient' := heffect.client hclient
        by_cases heq : fd = u.nt.fdSocket
        · subst heq
          rcases hinv'.handled hu hclient' hevents hresults hok with harmed | hclosed
          · exact .inl harmed
          · rw [hclosed] at hclient
            cases hclient
        · refine Attended.effect (Attended.of_pending hpending (h fd hclient') ?_) heffect hclient
          rintro user' ⟨⟩
          rw [(hinv.user_nt hu).1]
          simpa using Ne.symm heq

theorem Served.alike (h : s.Served) (ha : Alike s s') : s'.Served := by
  intro fd hclient
  exact Attended.alike (h fd (ha.files ▸ hclient)) ha

/-- A new client is armed. -/
theorem Served.withClient (h : s.Served) (fd : ℤ) (u : CSocketUser) :
    (Inv.withClient s fd u).Served := by
  intro fd' hclient
  by_cases heq : fd' = fd
  · subst heq
    exact .inl ⟨_, _, AList.lookup_insert _⟩
  · simp only [Inv.withClient, AList.lookup_insert_ne heq] at hclient
    rcases h fd' hclient with ⟨ptr, mask, hinterest⟩ | ⟨user, events, hmem, hfd⟩
    · exact .inl ⟨ptr, mask, (AList.lookup_insert_ne heq).trans hinterest⟩
    · refine .inr ⟨user, events, hmem, ?_⟩
      obtain ⟨d, hd, rfl⟩ := Option.map_eq_some_iff.mp hfd
      have hlt := (List.getElem?_eq_some_iff.mp hd).1
      simp only [descriptors] at hd hlt
      simp only [descriptors, Inv.withClient, List.map_append]
      rw [List.getElem?_append_left hlt, hd]
      rfl

/-- **One event** that is answered, and during which no call fails, forgets no client. -/
theorem Served.exec (h : s.Served) (hinv : s.Inv) {e : LoopEvent} (hanswered : s.Answered e)
    (hok : ¬ (s.exec e).Failed) : (s.exec e).Served := by
  cases e with
  | wait ready =>
    rw [EventLoop.exec]
    split
    · exact h.report hinv ready
    · exact h
  | dispatch results ctl => exact h.dispatch hinv hanswered hok
  | accept fd junk junk' usable ctl =>
    rw [EventLoop.exec] at hok ⊢
    by_cases hfd : 0 ≤ fd ∧ s.files.lookup fd = none
    · rcases hinv.accept hfd.1 hfd.2 junk junk' usable ctl with ⟨hfailed, -⟩ | ⟨-, ha⟩
      · exact absurd hfailed hok
      · exact (h.withClient _ _).alike ha
    · rw [accept_eq_self s hfd]
      exact h
  | send user buffer ret ctl =>
    cases hu : s.users[user]? with
    | none => simpa only [EventLoop.exec, hu] using h
    | some u =>
      simp only [EventLoop.exec, hu] at hok ⊢
      exact h.outcome (outcome_send hu (hinv.user_nt hu).2.1 buffer ret) hok
  | disconnect user ctl =>
    cases hu : s.users[user]? with
    | none => simpa only [EventLoop.exec, hu] using h
    | some u =>
      simp only [EventLoop.exec, hu] at hok ⊢
      obtain ⟨hd, hepoll, hfile, -⟩ := hinv.user_nt hu
      exact h.outcome (outcome_disconnect hd hepoll hfile) hok

end Served

/-! ## Whole runs -/

/-- What is expected of a state: no open client is forgotten, and a call of `Receive` for a client
in the socket map returns as expected exactly when it is given what `Careful` asks for. -/
structure Sound (s : EventLoop) : Prop where
  served : s.Served
  receive : ∀ (user : ℕ) (u : CSocketUser), s.users[user]? = some u →
    s.getSocketUser u.nt.fdSocket = some user →
    ∀ (chunks : List (List UInt8)) (last : RecvResult) (ctl : ℤ), last = .eof ∨ last = .error →
      ((({ s with actions := [] } : EventLoop).receive user u.nt ctl
        (chunks.map .data ++ [last])).Returned user u.nt.fdSocket ↔ last = .error ∧ 0 ≤ ctl)

/-- **Clients are armed again.** In every run of a thread in which no call of `epoll_ctl` fails, the
events handled are `EPOLLIN` or `EPOLLOUT`, and the calls of `recv` in a call of `Receive` end with
`-1`, every state reached is as expected. -/
theorem armed_of_careful {fdSocket fdEpoll : ℤ} (hne : fdSocket ≠ fdEpoll) (es : List LoopEvent)
    (hcareful : Machine.Along step Careful (init fdSocket fdEpoll) es) :
    (Machine.run step (init fdSocket fdEpoll) es).Sound := by
  have hstep : ∀ s e, s.Inv ∧ s.Served → s.Careful e → (step s e).2.Inv ∧ (step s e).2.Served := by
    intro s e h he
    have hnext := (h.1.step_cases e).resolve_left fun hbroken => Inv.not_failed he.1 hbroken.1
    have hstart : ({ s with actions := [] } : EventLoop).Served := h.2
    exact ⟨hnext.2, hstart.exec h.1.start he.2 hnext.1⟩
  have hserved : (init fdSocket fdEpoll).Served := by
    intro fd hclient
    obtain ⟨user, armed, -, huser⟩ := (inv_init hne).registered fd hclient
    simp [init, descriptors] at huser
  obtain ⟨hinv, hserved'⟩ := Machine.run_invariant hstep ⟨inv_init hne, hserved⟩ hcareful
  refine ⟨hserved', ?_⟩
  intro user u hu hmap chunks last ctl hlast
  exact hinv.start.returned_iff hu hmap rfl chunks hlast

/-- A client is accepted, sends, and closes. -/
theorem sound_receiving :
    (Machine.run step (init 3 4)
      [.accept 7 (fun _ => 0) (fun _ => 0) 8 0, .wait [(7, ⟨true, false, false⟩)],
        .dispatch [.data [104, 105], .error] 0, .wait [(7, ⟨true, true, false⟩)],
        .dispatch [] 0]).Sound :=
  armed_of_careful (by decide) _ (by decide +kernel)

/-- The peer closes after the event was reported: `recv` answers with its bytes and then `0`, and
the client is open, not armed, and nothing is left to be handled. -/
theorem exists_forgotten_client : ¬ ∀ es, (Machine.run step (init 3 4) es).Served := by
  intro h
  have hserved := h [.accept 7 (fun _ => 0) (fun _ => 0) 8 0, .wait [(7, ⟨true, false, false⟩)],
    .dispatch [.data [104, 105], .eof] 0] 7 (by decide +kernel)
  rcases hserved with ⟨ptr, mask, harmed⟩ | ⟨user, events, hpending, -⟩
  · have hdisarmed : ((Machine.run step (init 3 4)
        [.accept 7 (fun _ => 0) (fun _ => 0) 8 0, .wait [(7, ⟨true, false, false⟩)],
          .dispatch [.data [104, 105], .eof] 0]).interest.lookup 7).map Registration.armed =
        some none := by
      decide +kernel
    rw [harmed] at hdisarmed
    cases hdisarmed
  · cases hpending

end EventLoop

end CodeTest.Net
