import CodeTest.Net.EventLoop
import Mathlib.Tactic

/-!
# The clients of a thread

A failed `epoll_ctl` makes `HandleSocketListener` close the descriptor of the thread's epoll
instance along with that of the client, and leaves the client in the socket map. So what a single
event may do has two forms (`Outcome`): the epoll instance is closed, or the event has one of the
effects that are meant, which are listed by `Effect`. As long as no call of `epoll_ctl` has failed
the socket map has exactly the open clients, each of which is in the interest list.
-/

namespace CodeTest.Net

/-- A call of `epoll_ctl` that was not successful. -/
def NetAction.failed : NetAction → Bool
  | .epollCtl _ ok => !ok
  | _ => false

namespace EventLoop

open Connection

/-- The descriptors that the `CSocketUser`s are made for, the socket's and the epoll instance's. -/
def descriptors (s : EventLoop) : List (ℤ × ℤ) :=
  s.users.map fun u => (u.nt.fdSocket, u.nt.fdEpoll)

/-- Some call of `epoll_ctl` has failed. -/
def Failed (s : EventLoop) : Prop := ∃ a ∈ s.actions, a.failed = true

/-- Two states that differ at most in the buffers, in which sockets are taken for writable, and in
what was done. -/
structure Alike (s s' : EventLoop) : Prop where
  nt : s'.nt = s.nt
  files : s'.files = s.files
  interest : s'.interest = s.interest
  allSocketMap : s'.allSocketMap = s.allSocketMap
  pending : s'.pending = s.pending
  descriptors : s'.descriptors = s.descriptors

namespace Alike

variable {s s' s'' : EventLoop}

@[refl] theorem refl (s : EventLoop) : Alike s s := ⟨rfl, rfl, rfl, rfl, rfl, rfl⟩

theorem trans (h : Alike s s') (h' : Alike s' s'') : Alike s s'' :=
  ⟨h'.nt.trans h.nt, h'.files.trans h.files, h'.interest.trans h.interest,
    h'.allSocketMap.trans h.allSocketMap, h'.pending.trans h.pending,
    h'.descriptors.trans h.descriptors⟩

theorem act (h : Alike s s') (a : NetAction) : Alike s (s'.act a) :=
  h.trans ⟨rfl, rfl, rfl, rfl, rfl, rfl⟩

theorem modifyUser (s : EventLoop) (user : ℕ) {f : CSocketUser → CSocketUser}
    (hf : ∀ u, (f u).nt.fdSocket = u.nt.fdSocket ∧ (f u).nt.fdEpoll = u.nt.fdEpoll) :
    Alike s (s.modifyUser user f) := by
  refine ⟨rfl, rfl, rfl, rfl, rfl, ?_⟩
  apply List.ext_getElem?
  intro i
  simp only [EventLoop.descriptors, EventLoop.modifyUser, List.getElem?_map, List.getElem?_modify]
  cases s.users[i]? with
  | none => rfl
  | some u =>
    split_ifs
    · simp [(hf u).1, (hf u).2]
    · rfl

theorem getSocketUser (h : Alike s s') (fd : ℤ) : s'.getSocketUser fd = s.getSocketUser fd := by
  rw [EventLoop.getSocketUser, h.allSocketMap, EventLoop.getSocketUser]

theorem ctlPossible (h : Alike s s') (nt : NetThreadLinux) (type : ℤ) :
    s'.CtlPossible nt type ↔ s.CtlPossible nt type := by
  rw [CtlPossible, h.nt, h.files, h.interest, CtlPossible]

end Alike

/-- The effects that an operation on a client has when no call of `epoll_ctl` fails. -/
inductive Effect (s s' : EventLoop) : Prop
  /-- Nothing that matters here. -/
  | quiet (h : Alike s s')
  /-- The entry of an open client in the interest list is armed. -/
  | armed (user : ℕ) (fd : ℤ) (mask : List EpollFlag)
      (hfd : s.descriptors[user]? = some (fd, s.nt.fdEpoll))
      (hopen : (s.files.lookup fd).isSome)
      (h : Alike { s with interest := s.interest.insert fd ⟨some user, some mask⟩ } s')
  /-- A client is closed and forgotten. -/
  | closed (user : ℕ) (fd : ℤ) (hfd : s.descriptors[user]? = some (fd, s.nt.fdEpoll))
      (h : Alike { s with
        files := s.files.erase fd
        interest := s.interest.erase fd
        allSocketMap := s.allSocketMap.erase fd } s')

/-- What an operation leads to: the epoll instance is closed by a call of `epoll_ctl` that fails, or
no call fails. -/
def Outcome (s s' : EventLoop) : Prop :=
  (s'.Failed ∧ s'.files.lookup s.nt.fdEpoll = none) ∨ ((s'.Failed ↔ s.Failed) ∧ Effect s s')

/-! ## The helpers -/

section Helpers

variable (s : EventLoop) {user : ℕ} {nt : NetThreadLinux} {events : List EpollFlag} {type ctl : ℤ}

@[simp] theorem close_actions (fd : ℤ) : (s.close fd).actions = s.actions := rfl

@[simp] theorem close_files (fd : ℤ) : (s.close fd).files = s.files.erase fd := rfl

@[simp] theorem act_files (a : NetAction) : (s.act a).files = s.files := rfl

@[simp] theorem act_actions (a : NetAction) : (s.act a).actions = s.actions ++ [a] := rfl

theorem failed_act (a : NetAction) : (s.act a).Failed ↔ s.Failed ∨ a.failed = true := by
  simp [Failed, or_and_right, exists_or]

theorem handleSocketListener_of_possible (hctl : 0 ≤ ctl) (h : s.CtlPossible nt type) :
    s.handleSocketListener user nt events type ctl =
      (true, { s.act (.epollCtl nt.fdSocket true) with
        interest :=
          if type < 0 then s.interest.erase nt.fdSocket
          else s.interest.insert nt.fdSocket ⟨some user, some events⟩ }) := by
  rw [handleSocketListener, epollCtl, if_pos ⟨hctl, h⟩]

theorem handleSocketListener_of_failed (h : ¬ (0 ≤ ctl ∧ s.CtlPossible nt type)) :
    s.handleSocketListener user nt events type ctl =
      (false, ((s.act (.epollCtl nt.fdSocket false)).close nt.fdEpoll).close nt.fdSocket) := by
  rw [handleSocketListener, epollCtl, if_neg h]

variable (user events) in
/-- After a call that fails the epoll instance is closed. -/
theorem broken_of_failed (h : ¬ (0 ≤ ctl ∧ s.CtlPossible nt type)) :
    (s.handleSocketListener user nt events type ctl).2.Failed ∧
      (s.handleSocketListener user nt events type ctl).2.files.lookup nt.fdEpoll = none := by
  rw [handleSocketListener_of_failed s h]
  refine ⟨⟨.epollCtl nt.fdSocket false, by simp, rfl⟩, ?_⟩
  simp only [close_files, act_files]
  rw [Table.lookup_erase_eq, Table.lookup_erase_eq, if_pos rfl, ite_self]

/-- `accept` does not answer with a descriptor that is open. -/
theorem accept_eq_self {fd : ℤ} {junk junk' : ℤ → UInt8} {usable : ℕ}
    (hfd : ¬ (0 ≤ fd ∧ s.files.lookup fd = none)) : s.accept fd junk junk' usable ctl = s := by
  rw [accept, if_pos]
  by_contra hnot
  simp only [not_or, not_lt, Option.not_isSome_iff_eq_none] at hnot
  exact hfd hnot

end Helpers

/-! ## The effects of the operations -/

section Effects

variable {s s₁ : EventLoop} {user : ℕ} {nt : NetThreadLinux} {events : List EpollFlag} {ctl : ℤ}

theorem Effect.of_alike_left {s' : EventLoop} (h : Alike s s₁) (h' : Effect s₁ s') :
    Effect s s' := by
  cases h' with
  | quiet h' => exact .quiet (h.trans h')
  | armed user fd mask hfd hopen h' =>
    refine .armed user fd mask ?_ ?_ (.trans ?_ h')
    · rw [← h.descriptors, ← h.nt, hfd]
    · rw [← h.files, hopen]
    · exact ⟨h.nt, h.files, by rw [h.interest], h.allSocketMap, h.pending, h.descriptors⟩
  | closed user fd hfd h' =>
    refine .closed user fd ?_ (.trans ?_ h')
    · rw [← h.descriptors, ← h.nt, hfd]
    · exact ⟨h.nt, by rw [h.files], by rw [h.interest], by rw [h.allSocketMap], h.pending,
        h.descriptors⟩

/-- The client of a user is armed, or the epoll instance is closed. -/
theorem outcome_arm (hfd : s.descriptors[user]? = some (nt.fdSocket, nt.fdEpoll))
    (hepoll : nt.fdEpoll = s.nt.fdEpoll) :
    Outcome s (s.handleSocketListener user nt events 0 ctl).2 := by
  by_cases hok : 0 ≤ ctl ∧ s.CtlPossible nt 0
  · refine .inr ⟨?_, ?_⟩
    · rw [handleSocketListener_of_possible s hok.1 hok.2]
      exact (failed_act s (.epollCtl nt.fdSocket true)).trans (by simp [NetAction.failed])
    · rw [handleSocketListener_of_possible s hok.1 hok.2]
      exact .armed user nt.fdSocket events (hepoll ▸ hfd) hok.2.2.2.1 (.act (.refl _) _)
  · exact .inl (hepoll ▸ broken_of_failed s user events hok)

/-- What is done after an operation does not change its outcome. -/
theorem Outcome.act {s' : EventLoop} (h : Outcome s s') {a : NetAction} (ha : a.failed = false) :
    Outcome s (s'.act a) := by
  rcases h with ⟨hfailed, hbroken⟩ | ⟨hfailed, heffect⟩
  · exact .inl ⟨(failed_act s' a).mpr (.inl hfailed), hbroken⟩
  · refine .inr ⟨by rw [failed_act, hfailed, ha]; simp, ?_⟩
    cases heffect with
    | quiet h => exact .quiet (h.act a)
    | armed user fd mask hfd hopen h => exact .armed user fd mask hfd hopen (h.act a)
    | closed user fd hfd h => exact .closed user fd hfd (h.act a)

theorem Outcome.of_alike {s' : EventLoop} (h : Alike s s₁) (hfailed : s₁.Failed ↔ s.Failed)
    (h' : Outcome s₁ s') : Outcome s s' := by
  rcases h' with hbroken | ⟨hfailed', heffect⟩
  · exact .inl (h.nt ▸ hbroken)
  · exact .inr ⟨hfailed'.trans hfailed, .of_alike_left h heffect⟩

theorem alike_store (s : EventLoop) (socketUser : ℕ) (fd : ℤ) (bytes : List UInt8) :
    Alike s (s.store socketUser fd bytes) ∧ ((s.store socketUser fd bytes).Failed ↔ s.Failed) := by
  unfold store
  split
  · exact ⟨.refl s, .rfl⟩
  · rename_i u hu
    have halike : Alike s (s.modifyUser socketUser
        fun u' => { u' with recvBuffer := (u.recvBuffer.write bytes).2 }) :=
      .modifyUser s socketUser (fun _ => ⟨rfl, rfl⟩)
    dsimp only
    split_ifs
    · exact ⟨halike.act _, (failed_act _ _).trans (by simp [NetAction.failed]; rfl)⟩
    · exact ⟨halike, .rfl⟩

theorem outcome_receive (hfd : s.descriptors[user]? = some (nt.fdSocket, nt.fdEpoll))
    (hepoll : nt.fdEpoll = s.nt.fdEpoll) (results : List RecvResult) :
    Outcome s (s.receive user nt ctl results) := by
  induction results generalizing s with
  | nil => exact .inr ⟨.rfl, .quiet (.refl s)⟩
  | cons result results ih =>
    cases result with
    | error => exact (outcome_arm hfd hepoll).act rfl
    | eof => exact .inr ⟨.rfl, .quiet (.refl s)⟩
    | data chunk =>
      rw [receive]
      split
      · rename_i socketUser hsocketUser
        obtain ⟨halike, hfailed⟩ := alike_store s socketUser nt.fdSocket (terminate chunk)
        refine .of_alike halike hfailed (ih ?_ ?_)
        · rw [halike.descriptors, hfd]
        · rw [halike.nt, hepoll]
      · exact .inr ⟨.rfl, .quiet (.refl s)⟩

theorem outcome_writeable (hfd : s.descriptors[user]? = some (nt.fdSocket, nt.fdEpoll))
    (hepoll : nt.fdEpoll = s.nt.fdEpoll) : Outcome s (s.writeable user nt ctl) := by
  unfold writeable
  split
  · rename_i socketUser hsocketUser
    have halike : Alike s (s.modifyUser socketUser (setWritable true)) :=
      .modifyUser s socketUser (fun _ => ⟨rfl, rfl⟩)
    have hfd' := halike.descriptors ▸ hfd
    refine .of_alike halike .rfl (Outcome.act ?_ rfl)
    exact outcome_arm hfd' hepoll
  · exact .inr ⟨.rfl, .quiet (.refl s)⟩

theorem outcome_send {u : CSocketUser} (hu : s.users[user]? = some u)
    (hepoll : u.nt.fdEpoll = s.nt.fdEpoll) (buffer : List UInt8) (ret : ℤ) :
    Outcome s (s.send user u buffer ret ctl) := by
  unfold send
  split_ifs
  · exact .inr ⟨.rfl, .quiet (.refl s)⟩
  · have halike : Alike s (s.modifyUser user fun u =>
        { setWritable false u with sendBuffer := (u.sendBuffer.write (buffer ++ [0])).2 }) :=
      .modifyUser s user (fun _ => ⟨rfl, rfl⟩)
    refine .of_alike halike .rfl (outcome_arm ?_ hepoll)
    rw [halike.descriptors, descriptors, List.getElem?_map, hu]
    rfl

theorem outcome_disconnect (hfd : s.descriptors[user]? = some (nt.fdSocket, nt.fdEpoll))
    (hepoll : nt.fdEpoll = s.nt.fdEpoll) (hfile : s.files.lookup nt.fdSocket ≠ some .epoll) :
    Outcome s (s.disconnect user nt ctl) := by
  by_cases hok : 0 ≤ ctl ∧ s.CtlPossible nt (-1)
  · have heq : (s.disconnect user nt ctl) =
        ({ s with
          files := s.files.erase nt.fdSocket
          interest := s.interest.erase nt.fdSocket
          allSocketMap := s.allSocketMap.erase nt.fdSocket
          actions := s.actions ++ [.epollCtl nt.fdSocket true] ++
            [.callback .disconnect (s.getSocketUser nt.fdSocket)] } : EventLoop) := by
      rw [disconnect, handleSocketListener_of_possible s hok.1 hok.2]
      simp [close, act, delSocketUser, getSocketUser, hfile, Table.erase_erase_self]
    rw [heq]
    refine .inr ⟨?_, .closed user nt.fdSocket (hepoll ▸ hfd) ⟨rfl, rfl, rfl, rfl, rfl, rfl⟩⟩
    simp [Failed, NetAction.failed, or_and_right, exists_or]
  · obtain ⟨hfailed, hbroken⟩ := broken_of_failed s user
      [.epollin, .epollout, .epollrdhup, .epollet, .epolloneshot] hok
    refine .inl ⟨(failed_act _ _).mpr (.inl hfailed), ?_⟩
    show ((s.handleSocketListener user nt _ (-1) ctl).2.files.erase nt.fdSocket).lookup _ = none
    rw [Table.lookup_erase_eq, ← hepoll, hbroken, ite_self]

end Effects

/-! ## The invariant -/

/-- As long as no call of `epoll_ctl` has failed: the epoll instance and the listening socket are
open, a user has a descriptor of its own, the socket map has the open clients, and these are in the
interest list with their users. -/
structure Inv (s : EventLoop) : Prop where
  epoll : s.files.lookup s.nt.fdEpoll = some .epoll
  epoll_only : ∀ fd, s.files.lookup fd = some .epoll → fd = s.nt.fdEpoll
  listening : s.files.lookup s.nt.fdSocket = some .listening
  user : ∀ d ∈ s.descriptors, d.2 = s.nt.fdEpoll ∧ d.1 ≠ s.nt.fdEpoll ∧ d.1 ≠ s.nt.fdSocket
  mapped : ∀ fd, (s.allSocketMap.lookup fd).isSome ↔ s.files.lookup fd = some .client
  registered : ∀ fd, s.files.lookup fd = some .client → ∃ user armed,
    s.interest.lookup fd = some ⟨some user, armed⟩ ∧
      s.descriptors[user]? = some (fd, s.nt.fdEpoll)

theorem inv_init {fdSocket fdEpoll : ℤ} (hne : fdSocket ≠ fdEpoll) :
    (init fdSocket fdEpoll).Inv := by
  have hfiles : ∀ fd, (init fdSocket fdEpoll).files.lookup fd =
      if fd = fdEpoll then some .epoll else if fd = fdSocket then some .listening else none := by
    intro fd
    simp only [init]
    rw [Table.lookup_insert_eq, Table.lookup_insert_eq, AList.lookup_empty]
  refine ⟨?_, ?_, ?_, ?_, ?_, ?_⟩
  · rw [hfiles, init, if_pos rfl]
  · intro fd hfd
    rw [hfiles] at hfd
    split_ifs at hfd with hepoll
    · exact hepoll
    · cases hfd
  · rw [hfiles, init, if_neg hne, if_pos rfl]
  · simp [init, descriptors]
  · intro fd
    rw [hfiles]
    simp only [init, AList.lookup_empty]
    split_ifs <;> simp
  · intro fd hfd
    rw [hfiles] at hfd
    split_ifs at hfd <;> cases hfd

namespace Inv

variable {s s' : EventLoop}

theorem alike (h : s.Inv) (ha : Alike s s') : s'.Inv := by
  constructor
  · rw [ha.files, ha.nt, h.epoll]
  · rw [ha.files, ha.nt]
    exact h.epoll_only
  · rw [ha.files, ha.nt, h.listening]
  · rw [ha.descriptors, ha.nt]
    exact h.user
  · rw [ha.allSocketMap, ha.files]
    exact h.mapped
  · rw [ha.files, ha.interest, ha.descriptors, ha.nt]
    exact h.registered

theorem of_armed (h : s.Inv) {user : ℕ} {fd : ℤ} {armed : Option (List EpollFlag)}
    (hfd : s.descriptors[user]? = some (fd, s.nt.fdEpoll)) :
    ({ s with interest := s.interest.insert fd ⟨some user, armed⟩ } : EventLoop).Inv := by
  refine ⟨h.epoll, h.epoll_only, h.listening, h.user, h.mapped, ?_⟩
  intro fd' hfd'
  obtain ⟨user', armed', hinterest, huser⟩ := h.registered fd' hfd'
  by_cases heq : fd' = fd
  · subst heq
    exact ⟨user, armed, AList.lookup_insert _, hfd⟩
  · exact ⟨user', armed', (AList.lookup_insert_ne heq).trans hinterest, huser⟩

theorem of_closed (h : s.Inv) {fd : ℤ} (hepoll : fd ≠ s.nt.fdEpoll) (hsocket : fd ≠ s.nt.fdSocket) :
    ({ s with
      files := s.files.erase fd
      interest := s.interest.erase fd
      allSocketMap := s.allSocketMap.erase fd } : EventLoop).Inv := by
  refine ⟨?_, ?_, ?_, h.user, ?_, ?_⟩
  · exact (AList.lookup_erase_ne hepoll.symm).trans h.epoll
  · intro fd' hfd'
    simp only [Table.lookup_erase_eq] at hfd'
    split_ifs at hfd'
    exact h.epoll_only fd' hfd'
  · exact (AList.lookup_erase_ne hsocket.symm).trans h.listening
  · intro fd'
    simp only [Table.lookup_erase_eq]
    split_ifs
    · simp
    · exact h.mapped fd'
  · intro fd' hfd'
    simp only [Table.lookup_erase_eq] at hfd' ⊢
    split_ifs at hfd' ⊢
    exact h.registered fd' hfd'

theorem effect (h : s.Inv) (he : Effect s s') : s'.Inv := by
  cases he with
  | quiet ha => exact h.alike ha
  | armed user fd mask hfd hopen ha => exact (h.of_armed hfd).alike ha
  | closed user fd hfd ha =>
    obtain ⟨-, hepoll, hsocket⟩ := h.user _ (List.mem_of_getElem? hfd)
    exact (h.of_closed hepoll hsocket).alike ha

/-- A descriptor that is not open is not in the socket map. -/
theorem getSocketUser_eq_none (h : s.Inv) {fd : ℤ} (hfd : s.files.lookup fd = none) :
    s.getSocketUser fd = none := by
  apply Option.not_isSome_iff_eq_none.mp
  intro hmap
  rw [(h.mapped fd).mp hmap] at hfd
  cases hfd

/-- The state after a client was accepted. -/
def withClient (s : EventLoop) (fd : ℤ) (u : CSocketUser) : EventLoop :=
  { s with
    files := s.files.insert fd .client
    interest := s.interest.insert fd
      ⟨some s.users.length, some [.epollin, .epollrdhup, .epollet, .epolloneshot]⟩
    users := s.users ++ [u]
    allSocketMap := s.allSocketMap.insert fd s.users.length }

/-- A turn of `Accept` sets up the new client, or the epoll instance is closed. -/
theorem accept (h : s.Inv) {fd : ℤ} (hpos : 0 ≤ fd) (hnew : s.files.lookup fd = none)
    (junk junk' : ℤ → UInt8) (usable : ℕ) (ctl : ℤ) :
    ((s.accept fd junk junk' usable ctl).Failed ∧
        (s.accept fd junk junk' usable ctl).files.lookup s.nt.fdEpoll = none) ∨
      (((s.accept fd junk junk' usable ctl).Failed ↔ s.Failed) ∧
        Alike (withClient s fd ⟨⟨true, fd, s.nt.fdEpoll⟩, .new junk usable, .new junk' usable⟩)
          (s.accept fd junk junk' usable ctl)) := by
  have hmap : s.allSocketMap.lookup fd = none := h.getSocketUser_eq_none hnew
  rw [EventLoop.accept, if_neg (by simp [hnew, hpos])]
  simp only [addSocketUser, hmap]
  generalize hs₁ : ({ s with
    files := s.files.insert fd .client
    users := s.users ++ [⟨⟨true, fd, s.nt.fdEpoll⟩, .new junk usable, .new junk' usable⟩]
    allSocketMap := s.allSocketMap.insert fd s.users.length } : EventLoop) = s₁
  by_cases hok : 0 ≤ ctl ∧ s₁.CtlPossible ⟨true, fd, s.nt.fdEpoll⟩ 1
  · rw [handleSocketListener_of_possible s₁ hok.1 hok.2]
    subst hs₁
    refine .inr ⟨?_, rfl, rfl, rfl, rfl, rfl, rfl⟩
    simp [Failed, NetAction.failed, act, or_and_right, exists_or]
  · obtain ⟨hfailed, hbroken⟩ := broken_of_failed s₁ s.users.length
      [.epollin, .epollrdhup, .epollet, .epolloneshot] hok
    exact .inl ⟨(failed_act _ _).mpr (.inl hfailed), hbroken⟩

theorem of_withClient (h : s.Inv) {fd : ℤ} {u : CSocketUser} (hnew : s.files.lookup fd = none)
    (hu : (u.nt.fdSocket, u.nt.fdEpoll) = (fd, s.nt.fdEpoll)) : (withClient s fd u).Inv := by
  have hepoll : s.nt.fdEpoll ≠ fd := by
    rintro rfl
    rw [h.epoll] at hnew
    cases hnew
  have hsocket : s.nt.fdSocket ≠ fd := by
    rintro rfl
    rw [h.listening] at hnew
    cases hnew
  have hdescriptors : (withClient s fd u).descriptors = s.descriptors ++ [(fd, s.nt.fdEpoll)] := by
    simp [withClient, descriptors, hu]
  refine ⟨?_, ?_, ?_, ?_, ?_, ?_⟩
  · exact (AList.lookup_insert_ne hepoll).trans h.epoll
  · intro fd' hfd'
    simp only [withClient, Table.lookup_insert_eq] at hfd'
    split_ifs at hfd'
    · cases hfd'
    · exact h.epoll_only fd' hfd'
  · exact (AList.lookup_insert_ne hsocket).trans h.listening
  · intro d hd
    rw [hdescriptors, List.mem_append, List.mem_singleton] at hd
    rcases hd with hd | rfl
    · exact h.user d hd
    · exact ⟨rfl, hepoll.symm, hsocket.symm⟩
  · intro fd'
    simp only [withClient, Table.lookup_insert_eq]
    split_ifs
    · simp
    · exact h.mapped fd'
  · intro fd' hfd'
    rw [hdescriptors]
    simp only [withClient, Table.lookup_insert_eq] at hfd' ⊢
    split_ifs at hfd' ⊢ with heq
    · subst heq
      refine ⟨s.users.length, _, rfl, ?_⟩
      rw [List.getElem?_append_right (by simp [descriptors])]
      simp [descriptors]
    · obtain ⟨user, armed, hinterest, huser⟩ := h.registered fd' hfd'
      refine ⟨user, armed, hinterest, ?_⟩
      rw [List.getElem?_append_left (List.getElem?_eq_some_iff.mp huser).1, huser]

/-- Which events are still to be handled does not matter. -/
theorem of_pending (h : s.Inv) (pending : List (Option ℕ × EpollEvents)) :
    ({ s with pending } : EventLoop).Inv :=
  ⟨h.epoll, h.epoll_only, h.listening, h.user, h.mapped, h.registered⟩

theorem of_disarmed (h : s.Inv) {fd : ℤ} {ptr : Option ℕ} {armed : Option (List EpollFlag)}
    (hlookup : s.interest.lookup fd = some ⟨ptr, armed⟩) :
    ({ s with interest := s.interest.insert fd ⟨ptr, none⟩ } : EventLoop).Inv := by
  refine ⟨h.epoll, h.epoll_only, h.listening, h.user, h.mapped, ?_⟩
  intro fd' hfd'
  obtain ⟨user, armed', hinterest, huser⟩ := h.registered fd' hfd'
  by_cases heq : fd' = fd
  · subst heq
    rw [hlookup] at hinterest
    cases hinterest
    exact ⟨user, none, AList.lookup_insert _, huser⟩
  · exact ⟨user, armed', (AList.lookup_insert_ne heq).trans hinterest, huser⟩

/-- A report of `epoll_wait` changes the interest list at most by disarming entries. -/
theorem report (h : s.Inv) (ready : List (ℤ × EpollEvents)) :
    (s.report ready).Inv ∧ (s.report ready).actions = s.actions := by
  induction ready generalizing s with
  | nil => exact ⟨h, rfl⟩
  | cons r ready ih =>
    rw [EventLoop.report]
    split
    · rename_i ptr mask hlookup
      apply ih
      split_ifs
      · exact (h.of_disarmed hlookup).of_pending _
      · exact h.of_pending _
    · exact ih h

/-- The operations on a client leave a state as it should be, or close the epoll instance. -/
theorem outcome (h : s.Inv) (hfailed : ¬ s.Failed) (ho : Outcome s s') :
    (s'.Failed ∧ s'.files.lookup s.nt.fdEpoll = none) ∨ (¬ s'.Failed ∧ s'.Inv) := by
  rcases ho with hbroken | ⟨hfailed', heffect⟩
  · exact .inl hbroken
  · exact .inr ⟨fun hf => hfailed (hfailed'.mp hf), h.effect heffect⟩

/-- The descriptors of a user. -/
theorem user_nt (h : s.Inv) {user : ℕ} {u : CSocketUser} (hu : s.users[user]? = some u) :
    s.descriptors[user]? = some (u.nt.fdSocket, u.nt.fdEpoll) ∧ u.nt.fdEpoll = s.nt.fdEpoll ∧
      s.files.lookup u.nt.fdSocket ≠ some .epoll ∧ u.nt.fdSocket ≠ s.nt.fdSocket := by
  have hd : s.descriptors[user]? = some (u.nt.fdSocket, u.nt.fdEpoll) := by
    rw [descriptors, List.getElem?_map, hu]
    rfl
  obtain ⟨hepoll, hne, hsocket⟩ := h.user _ (List.mem_of_getElem? hd)
  exact ⟨hd, hepoll, fun hfile => hne (h.epoll_only _ hfile), hsocket⟩

theorem outcome_handle (h : s.Inv) {user : ℕ} {u : CSocketUser} (hu : s.users[user]? = some u)
    (events : EpollEvents) (results : List RecvResult) (ctl : ℤ) :
    Outcome s (s.handle user u.nt events results ctl) := by
  obtain ⟨hd, hepoll, hfile, -⟩ := h.user_nt hu
  have hquiet : Outcome s s := .inr ⟨.rfl, .quiet (.refl s)⟩
  unfold handle
  split_ifs
  · exact hquiet
  · exact outcome_disconnect hd hepoll hfile
  · exact outcome_receive hd hepoll results
  · exact outcome_writeable hd hepoll
  · exact hquiet

/-- **One event.** It leaves a state as it should be, or a call of `epoll_ctl` fails and the epoll
instance is closed. -/
theorem exec (h : s.Inv) (hfailed : ¬ s.Failed) (e : LoopEvent) :
    ((s.exec e).Failed ∧ (s.exec e).files.lookup s.nt.fdEpoll = none) ∨
      (¬ (s.exec e).Failed ∧ (s.exec e).Inv) := by
  cases e with
  | wait ready =>
    rw [EventLoop.exec]
    split
    · obtain ⟨hinv, hactions⟩ := h.report ready
      exact .inr ⟨by rwa [Failed, hactions], hinv⟩
    · exact .inr ⟨hfailed, h⟩
  | dispatch results ctl =>
    rw [EventLoop.exec, dispatch]
    split
    · exact .inr ⟨hfailed, h⟩
    · exact .inr ⟨hfailed, h.of_pending _⟩
    · split
      · rename_i user events pending hpending _ u hu
        exact (h.of_pending pending).outcome hfailed ((h.of_pending pending).outcome_handle hu ..)
      · exact .inr ⟨hfailed, h.of_pending _⟩
  | accept fd junk junk' usable ctl =>
    rw [EventLoop.exec]
    by_cases hfd : 0 ≤ fd ∧ s.files.lookup fd = none
    · rcases h.accept hfd.1 hfd.2 junk junk' usable ctl with hbroken | ⟨hfailed', ha⟩
      · exact .inl hbroken
      · exact .inr ⟨fun hf => hfailed (hfailed'.mp hf), (h.of_withClient hfd.2 rfl).alike ha⟩
    · rw [accept_eq_self s hfd]
      exact .inr ⟨hfailed, h⟩
  | send user buffer ret ctl =>
    rw [EventLoop.exec]
    split
    · rename_i u hu
      exact h.outcome hfailed (outcome_send hu (h.user_nt hu).2.1 buffer ret)
    · exact .inr ⟨hfailed, h⟩
  | disconnect user ctl =>
    rw [EventLoop.exec]
    split
    · rename_i u hu
      obtain ⟨hd, hepoll, hfile, -⟩ := h.user_nt hu
      exact h.outcome hfailed (outcome_disconnect hd hepoll hfile)
    · exact .inr ⟨hfailed, h⟩

end Inv

/-! ## Whole runs -/

/-- No call of `epoll_ctl` fails during an event. -/
def NoFailure (s : EventLoop) (e : LoopEvent) : Prop := ∀ a ∈ (step s e).1, a.failed = false

instance (s : EventLoop) (e : LoopEvent) : Decidable (s.NoFailure e) :=
  inferInstanceAs (Decidable (∀ a ∈ (step s e).1, a.failed = false))

/-- What is expected of an event. When `epoll_ctl` fails for a client, the client is closed and
leaves the socket map, and nothing changes for the thread and for the other clients. A client that
is accepted is found in the socket map, as the `CSocketUser` that was made for it. -/
structure Contained (s : EventLoop) (e : LoopEvent) : Prop where
  failed : ∀ fd, .epollCtl fd false ∈ (step s e).1 →
    (step s e).2.files.lookup fd = none ∧ (step s e).2.getSocketUser fd = none ∧
      (step s e).2.files.lookup s.nt.fdEpoll = s.files.lookup s.nt.fdEpoll ∧
      (step s e).2.files.lookup s.nt.fdSocket = s.files.lookup s.nt.fdSocket ∧
      ∀ fd' ≠ fd, (step s e).2.interest.lookup fd' = s.interest.lookup fd' ∧
        (step s e).2.getSocketUser fd' = s.getSocketUser fd'
  accepted : ∀ fd junk junk' usable ctl, e = .accept fd junk junk' usable ctl → 0 ≤ fd →
    s.files.lookup fd = none → .epollCtl fd false ∉ (step s e).1 →
      (step s e).2.users.length = s.users.length + 1 ∧
        (step s e).2.getSocketUser fd = some s.users.length

namespace Inv

variable {s : EventLoop} {e : LoopEvent}

/-- The state at the start of an event. -/
theorem start (h : s.Inv) : ({ s with actions := [] } : EventLoop).Inv :=
  ⟨h.epoll, h.epoll_only, h.listening, h.user, h.mapped, h.registered⟩

theorem step_cases (h : s.Inv) (e : LoopEvent) :
    ((step s e).2.Failed ∧ (step s e).2.files.lookup s.nt.fdEpoll = none) ∨
      (¬ (step s e).2.Failed ∧ (step s e).2.Inv) :=
  h.start.exec (by simp [Failed]) e

theorem not_failed (hok : s.NoFailure e) : ¬ (step s e).2.Failed := by
  intro hfailed
  obtain ⟨a, ha, hfalse⟩ := hfailed
  rw [hok a ha] at hfalse
  cases hfalse

/-- A call of `epoll_ctl` that fails is not contained. -/
theorem not_contained (h : s.Inv) (hfail : ¬ s.NoFailure e) : ¬ s.Contained e := by
  intro hcontained
  obtain ⟨a, ha, hfailed⟩ : ∃ a ∈ (step s e).1, a.failed = true := by
    simpa [NoFailure] using hfail
  cases a with
  | epollCtl fd ok =>
    cases ok with
    | true => cases hfailed
    | false =>
      have hepoll := (hcontained.failed fd ha).2.2.1
      rcases h.step_cases e with ⟨-, hbroken⟩ | ⟨hnot, -⟩
      · rw [hbroken, h.epoll] at hepoll
        cases hepoll
      · exact hnot ⟨_, ha, rfl⟩
  | stored fd bytes => cases hfailed
  | callback cb user => cases hfailed

theorem contained (h : s.Inv) (hok : s.NoFailure e) : s.Contained e := by
  constructor
  · intro fd hfd
    cases hok _ hfd
  · rintro fd junk junk' usable ctl rfl hpos hnew -
    rcases h.start.accept hpos hnew junk junk' usable ctl with ⟨hfailed, -⟩ | ⟨-, ha⟩
    · exact absurd hfailed (not_failed hok)
    · refine ⟨?_, (ha.getSocketUser fd).trans (AList.lookup_insert _)⟩
      have hlength := congrArg List.length ha.descriptors
      simp only [descriptors, withClient, List.length_map, List.length_append,
        List.length_singleton] at hlength
      exact hlength

/-- Along a run every event is contained if and only if no call of `epoll_ctl` fails. -/
theorem along_contained_iff (h : s.Inv) (es : List LoopEvent) :
    Machine.Along step Contained s es ↔ Machine.Along step NoFailure s es := by
  have hiff : ∀ s e, Inv s → (Contained s e ↔ NoFailure s e) := by
    intro s e h
    constructor
    · intro hcontained
      by_contra hok
      exact h.not_contained hok hcontained
    · exact h.contained
  have hstep : ∀ s e, Inv s → NoFailure s e → Inv (step s e).2 := by
    intro s e h hok
    exact ((h.step_cases e).resolve_left fun hbroken => not_failed hok hbroken.1).2
  exact Machine.along_iff_along hiff hstep h

end Inv

/-- **Failures are not contained.** Along a run of a thread every failed call of `epoll_ctl` is
contained, and every client accepted is found in the socket map, if and only if no call fails. -/
theorem contained_iff {fdSocket fdEpoll : ℤ} (hne : fdSocket ≠ fdEpoll) (es : List LoopEvent) :
    Machine.Along step Contained (init fdSocket fdEpoll) es ↔
      Machine.Along step NoFailure (init fdSocket fdEpoll) es :=
  (inv_init hne).along_contained_iff es

/-- Two clients, one of which closes and whose descriptor is given out again. -/
theorem contained_reused_descriptor :
    Machine.Along step Contained (init 3 4)
      [.accept 7 (fun _ => 0) (fun _ => 0) 8 0, .accept 8 (fun _ => 0) (fun _ => 0) 8 0,
        .wait [(7, ⟨true, true, false⟩)], .dispatch [] 0, .accept 7 (fun _ => 0) (fun _ => 0) 8 0,
        .send 1 [104] (-1) 0] :=
  (contained_iff (by decide) _).mpr (by decide +kernel)

/-- The change that `Send` makes for one client fails: the epoll instance of the thread is closed
with it, and the other client is no longer registered. -/
theorem exists_failure_not_contained :
    ¬ ∀ es, Machine.Along step Contained (init 3 4) es := by
  intro h
  have hall := h [.accept 7 (fun _ => 0) (fun _ => 0) 8 0, .accept 8 (fun _ => 0) (fun _ => 0) 8 0,
    .send 0 [104] (-1) (-1)]
  have hepoll := (hall.2.2.1.failed 7 (by decide +kernel)).2.2.1
  revert hepoll
  decide +kernel

end EventLoop

end CodeTest.Net
