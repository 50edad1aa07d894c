import CodeTest.Foundations.Machine
import CodeTest.Rpc.Pending

/-!
# Replies and the calls they answer

The calls of an application and the processes that execute them, with the messages between them. A
request goes to `R_Excute`, which opens an execution; the execution may send replies, at any time
and any number of times; requests and replies are received in any order. Each message carries the
application and the index of the call, as in the code, and besides the number of the call, which the
code does not have: the arguments of the callbacks are marked with the number of the call they were
given for, so that a callback that is run because of a reply shows whether the reply was for its
call.

The code relies on the index alone, and a route that is given up and made again counts from the
start. `replies_correlated` says when this does no harm: when no call is made under an index for
which a request, an execution or a reply is still on its way. In `reply_to_wrong_call` one is.
-/

namespace CodeTest.Rpc

open CdsRpc

/-- A message about a call: its number, and what the code knows of it. -/
structure Msg (A : Type) where
  serial : ℕ
  app : A
  idx : Double

/-- `onResponse` or `onResponseError`. -/
inductive Answer (D : Type)
  | response (tData : D)
  | error

/-- The module, the messages on their way, the executions that are open, and the callbacks that are
still to be run and those that have been, each with the number of the call whose execution sent the
reply, if it is run because of one. -/
structure Network (A N Cb Args D : Type) where
  rpc : CdsRpc A N Cb (ℕ × Args)
  calls : ℕ
  requests : List (Msg A)
  running : List (Msg A)
  replies : List (Msg A × Answer D)
  queue : List (Option ℕ × Invocation Cb (ℕ × Args) D)
  executed : List (Option ℕ × Invocation Cb (ℕ × Args) D)

/-- What may happen next. Messages and executions are picked by their positions. -/
inductive Event (A N Cb Args D : Type)
  | call (now : ℤ) (app : A) (nTimeout : Option N) (tCbFunctor : Option (CbFunctor Cb Args))
  | excute (k : ℕ) (found : Bool)
  | respond (k : ℕ) (tData : D)
  | raise (k : ℕ)
  | finish (k : ℕ)
  | deliver (now : ℤ) (k : ℕ)
  | tick (now : ℤ) (t : Addr) (order : PairsOrder Double (CbFunctor Cb (ℕ × Args)))
  | run

namespace Network

variable {A N Cb Args D : Type} [DecidableEq A] [DecidableEq N]

def init : Network A N Cb Args D :=
  { rpc := .init, calls := 0, requests := [], running := [], replies := [], queue := [],
    executed := [] }

/-- The messages and executions that may still lead to a reply. -/
def outstanding (n : Network A N Cb Args D) : List (Msg A) :=
  n.requests ++ n.running ++ n.replies.map Prod.fst

section Step

variable [IntCast N] [Add N] [One N] [LE N] [DecidableLE N]

/-- `call`: the callbacks are marked with the number of the call. -/
def call (env : RpcEnv A N Cb (ℕ × Args)) (n : Network A N Cb Args D) (now : ℤ) (app : A)
    (nTimeout : Option N) (tCbFunctor : Option (CbFunctor Cb Args)) :
    Option (Network A N Cb Args D) := do
  let (nCbIdx, rpc) ← n.rpc.initRpcRoute env now app nTimeout
    (tCbFunctor.map fun f => f.mark n.calls)
  return { n with rpc, calls := n.calls + 1, requests := n.requests ++ [⟨n.calls, app, nCbIdx⟩] }

/-- `R_Excute` for a request: with the index 0 nothing will be answered; otherwise the procedure is
executed, or an error is reported at once when it is not found. -/
def excute (n : Network A N Cb Args D) (k : ℕ) (found : Bool) : Network A N Cb Args D :=
  match n.requests[k]? with
  | none => n
  | some m =>
    let n := { n with requests := n.requests.eraseIdx k }
    if m.idx = 0 then n
    else if found then { n with running := n.running ++ [m] }
    else { n with replies := n.replies ++ [(m, .error)] }

/-- An open execution sends a reply. -/
def reply (n : Network A N Cb Args D) (k : ℕ) (answer : Answer D) : Network A N Cb Args D :=
  match n.running[k]? with
  | none => n
  | some m => { n with replies := n.replies ++ [(m, answer)] }

/-- A reply is received. -/
def deliver (env : RpcEnv A N Cb (ℕ × Args)) (n : Network A N Cb Args D) (now : ℤ) (k : ℕ) :
    Option (Network A N Cb Args D) :=
  match n.replies[k]? with
  | none => some n
  | some (m, answer) => do
    let (invocations, rpc) ← match answer with
      | .response tData => n.rpc.onResponse env now m.app m.idx tData
      | .error => n.rpc.onResponseError env now m.app m.idx
    return { n with
      rpc, replies := n.replies.eraseIdx k
      queue := n.queue ++ invocations.map fun i => (some m.serial, i) }

/-- A timer fires, if it is registered. -/
def tick (n : Network A N Cb Args D) (now : ℤ) (t : Addr)
    (order : PairsOrder Double (CbFunctor Cb (ℕ × Args))) : Option (Network A N Cb Args D) :=
  match n.rpc.timers.lookup t with
  | none => some n
  | some (r, app) => do
    let (invocations, rpc) ← n.rpc.checkTimeout order now r app
    return { n with rpc, queue := n.queue ++ invocations.map fun i => (none, i) }

/-- One step. A callback may make calls itself: they are calls between this callback and the next.
-/
def step (env : RpcEnv A N Cb (ℕ × Args)) (n : Network A N Cb Args D) :
    Event A N Cb Args D → Option (Network A N Cb Args D)
  | .call now app nTimeout tCbFunctor => n.call env now app nTimeout tCbFunctor
  | .excute k found => some (n.excute k found)
  | .respond k tData => some (n.reply k (.response tData))
  | .raise k => some (n.reply k .error)
  | .finish k => some { n with running := n.running.eraseIdx k }
  | .deliver now k => n.deliver env now k
  | .tick now t order => n.tick now t order
  | .run => some { n with queue := n.queue.tail, executed := n.executed ++ n.queue.head?.toList }

end Step

/-- A call is not made under an index for which something is on its way. -/
def FreshIdx (n : Network A N Cb Args D) : Event A N Cb Args D → Prop
  | .call _ app _ (some _) => ∀ m ∈ n.outstanding, m.app = app → m.idx ≠ n.rpc.nextIdx app
  | _ => True

instance decidableFreshIdx (n : Network A N Cb Args D) : ∀ e, Decidable (FreshIdx n e)
  | .call _ app _ (some _) =>
    inferInstanceAs (Decidable (∀ m ∈ n.outstanding, m.app = app → m.idx ≠ n.rpc.nextIdx app))
  | .call _ _ _ none => isTrue trivial
  | .excute _ _ => isTrue trivial
  | .respond _ _ => isTrue trivial
  | .raise _ => isTrue trivial
  | .finish _ => isTrue trivial
  | .deliver _ _ => isTrue trivial
  | .tick _ _ _ => isTrue trivial
  | .run => isTrue trivial

/-! ## The invariant -/

/-- Callbacks that are pending where something on its way leads are those of the call it is for. -/
structure Matched (n : Network A N Cb Args D) : Prop where
  wellFormed : n.rpc.WellFormed
  idx_ne : ∀ m ∈ n.running ++ n.replies.map Prod.fst, m.idx ≠ 0
  matched : ∀ m ∈ n.outstanding, m.idx ≠ 0 → ∀ f, n.rpc.pending m.app m.idx = some f →
    f.tArgs.1 = m.serial
  ran : ∀ x ∈ n.queue ++ n.executed, ∀ p, x.1 = some p → x.2.tArgs.1 = p

variable {n : Network A N Cb Args D}

theorem matched_init : (init : Network A N Cb Args D).Matched where
  wellFormed := wellFormed_init
  idx_ne m hm := by simp [init] at hm
  matched m hm := by simp [init, outstanding] at hm
  ran x hx := by simp [init] at hx

/-- A step that only moves messages about. -/
theorem Matched.of_subset (h : n.Matched) {n' : Network A N Cb Args D} (hrpc : n'.rpc = n.rpc)
    (hran : n'.queue ++ n'.executed ⊆ n.queue ++ n.executed)
    (hsub : n'.outstanding ⊆ n.outstanding)
    (hne : ∀ m ∈ n'.running ++ n'.replies.map Prod.fst, m.idx ≠ 0) : n'.Matched where
  wellFormed := hrpc ▸ h.wellFormed
  idx_ne := hne
  matched m hm := hrpc ▸ h.matched m (hsub hm)
  ran x hx := h.ran x (hran hx)

theorem Matched.excute (h : n.Matched) (k : ℕ) (found : Bool) : (n.excute k found).Matched := by
  rw [Network.excute]
  cases hk : n.requests[k]? with
  | none => exact h
  | some m =>
    have hm : m ∈ n.requests := List.mem_of_getElem? hk
    have herase : ∀ m', m' ∈ n.requests.eraseIdx k → m' ∈ n.requests := fun m' =>
      List.mem_of_mem_eraseIdx
    have hne := h.idx_ne
    simp only [List.mem_append] at hne
    simp only
    split_ifs with h₀ hfound
    · refine h.of_subset rfl (fun x hx => hx) (fun m' hm' => ?_) h.idx_ne
      simp only [outstanding, List.mem_append] at hm' ⊢
      exact hm'.imp_left (Or.imp_left (herase m'))
    · refine h.of_subset rfl (fun x hx => hx) (fun m' hm' => ?_) fun m' hm' => ?_
      · simp only [outstanding, List.mem_append, List.mem_singleton] at hm' ⊢
        rcases hm' with (hm' | hm' | rfl) | hm'
        · exact .inl (.inl (herase m' hm'))
        · exact .inl (.inr hm')
        · exact .inl (.inl hm)
        · exact .inr hm'
      · simp only [List.mem_append, List.mem_singleton] at hm'
        rcases hm' with (hm' | rfl) | hm'
        · exact hne m' (.inl hm')
        · exact h₀
        · exact hne m' (.inr hm')
    · refine h.of_subset rfl (fun x hx => hx) (fun m' hm' => ?_) fun m' hm' => ?_
      · simp only [outstanding, List.mem_append, List.map_append, List.map_cons, List.map_nil,
          List.mem_singleton] at hm' ⊢
        rcases hm' with (hm' | hm') | hm' | rfl
        · exact .inl (.inl (herase m' hm'))
        · exact .inl (.inr hm')
        · exact .inr hm'
        · exact .inl (.inl hm)
      · simp only [List.mem_append, List.map_append, List.map_cons, List.map_nil,
          List.mem_singleton] at hm'
        rcases hm' with hm' | hm' | rfl
        · exact hne m' (.inl hm')
        · exact hne m' (.inr hm')
        · exact h₀

theorem Matched.reply (h : n.Matched) (k : ℕ) (answer : Answer D) : (n.reply k answer).Matched := by
  rw [Network.reply]
  cases hk : n.running[k]? with
  | none => exact h
  | some m =>
    have hm : m ∈ n.running := List.mem_of_getElem? hk
    have hne := h.idx_ne
    simp only [List.mem_append] at hne
    refine h.of_subset rfl (fun x hx => hx) (fun m' hm' => ?_) fun m' hm' => ?_
    · simp only [outstanding, List.mem_append, List.map_append, List.map_cons, List.map_nil,
        List.mem_singleton] at hm' ⊢
      rcases hm' with hm' | hm' | rfl
      · exact .inl hm'
      · exact .inr hm'
      · exact .inl (.inr hm)
    · simp only [List.mem_append, List.map_append, List.map_cons, List.map_nil,
        List.mem_singleton] at hm'
      rcases hm' with hm' | hm' | rfl
      · exact hne m' (.inl hm')
      · exact hne m' (.inr hm')
      · exact hne m' (.inl hm)

theorem Matched.deliver (h : n.Matched) (env : RpcEnv A N Cb (ℕ × Args)) (now : ℤ) (k : ℕ) :
    ∃ n', n.deliver env now k = some n' ∧ n'.Matched := by
  rw [Network.deliver]
  cases hk : n.replies[k]? with
  | none => exact ⟨n, rfl, h⟩
  | some reply =>
    obtain ⟨m, answer⟩ := reply
    have hm : m ∈ n.replies.map Prod.fst := List.mem_map_of_mem (List.mem_of_getElem? hk)
    have hne := h.idx_ne m (List.mem_append_right _ hm)
    obtain ⟨rpc, htake, hwf, hpending⟩ := h.wellFormed.pending_takeFunctor env now m.app m.idx
    -- whichever callback the reply runs, it is one of the call it is for
    have hnext : ∀ invocations : List (Invocation Cb (ℕ × Args) D),
        (∀ i ∈ invocations, ∃ f, n.rpc.pending m.app m.idx = some f ∧ i.tArgs = f.tArgs) →
        ({ n with
          rpc, replies := n.replies.eraseIdx k
          queue := n.queue ++ invocations.map fun i => (some m.serial, i) } :
          Network A N Cb Args D).Matched := by
      intro invocations hinv
      have hsub : ∀ m', m' ∈ (n.replies.eraseIdx k).map Prod.fst → m' ∈ n.replies.map Prod.fst := by
        intro m' hm'
        obtain ⟨x, hx, rfl⟩ := List.mem_map.mp hm'
        exact List.mem_map_of_mem (List.mem_of_mem_eraseIdx hx)
      refine ⟨hwf, fun m' hm' => ?_, fun m' hm' hne' f hf => ?_, fun x hx p hp => ?_⟩
      · exact h.idx_ne m' (List.mem_append.mpr ((List.mem_append.mp hm').imp_right (hsub m')))
      · rw [hpending] at hf
        split_ifs at hf
        refine h.matched m' ?_ hne' f hf
        simp only [outstanding, List.mem_append] at hm' ⊢
        exact hm'.imp_right (hsub m')
      · simp only [List.mem_append, List.mem_map] at hx
        rcases hx with (hx | ⟨i, hi, rfl⟩) | hx
        · exact h.ran x (List.mem_append_left _ hx) p hp
        · obtain ⟨f, hf, hargs⟩ := hinv i hi
          obtain rfl := Option.some_inj.mp hp
          rw [hargs]
          exact h.matched m (List.mem_append_right _ hm) hne f hf
        · exact h.ran x (List.mem_append_right _ hx) p hp
    cases answer with
    | response tData =>
      simp only [onResponse, htake, Option.bind_eq_bind, Option.bind_some]
      refine ⟨_, rfl, hnext _ fun i hi => ?_⟩
      obtain ⟨f, hf, hi⟩ := List.mem_filterMap.mp hi
      obtain ⟨fCb, -, rfl⟩ := Option.map_eq_some_iff.mp hi
      exact ⟨f, Option.mem_toList.mp hf, rfl⟩
    | error =>
      simp only [onResponseError, htake, Option.bind_eq_bind, Option.bind_some]
      refine ⟨_, rfl, hnext _ fun i hi => ?_⟩
      obtain ⟨f, hf, hi⟩ := List.mem_filterMap.mp hi
      obtain ⟨fError, -, rfl⟩ := Option.map_eq_some_iff.mp hi
      exact ⟨f, Option.mem_toList.mp hf, rfl⟩

theorem Matched.tick [IntCast N] (h : n.Matched) (now : ℤ) (t : Addr)
    (order : PairsOrder Double (CbFunctor Cb (ℕ × Args))) :
    ∃ n', n.tick now t order = some n' ∧ n'.Matched := by
  rw [Network.tick]
  cases ht : n.rpc.timers.lookup t with
  | none => exact ⟨n, rfl, h⟩
  | some closure =>
    obtain ⟨r, app⟩ := closure
    obtain ⟨tTimeouts, rpc, htake, hwf, hpending⟩ := h.wellFormed.pending_takeTimeouts ht order now
    simp only [checkTimeout, htake, Option.bind_eq_bind, Option.bind_some]
    refine ⟨_, rfl, hwf, h.idx_ne, fun m hm hne f hf => h.matched m hm hne f (hpending _ _ _ hf),
      fun x hx p hp => ?_⟩
    simp only [List.mem_append, List.mem_map] at hx
    rcases hx with (hx | ⟨i, hi, rfl⟩) | hx
    · exact h.ran x (List.mem_append_left _ hx) p hp
    · exact absurd hp (by simp)
    · exact h.ran x (List.mem_append_right _ hx) p hp

variable [IntCast N] [Add N] [One N] [LE N] [DecidableLE N]

theorem Matched.call (h : n.Matched) (env : RpcEnv A N Cb (ℕ × Args)) (now : ℤ) (app : A)
    (nTimeout : Option N) (tCbFunctor : Option (CbFunctor Cb Args))
    (hfresh : FreshIdx n (.call now app nTimeout tCbFunctor)) :
    ∃ n', n.call env now app nTimeout tCbFunctor = some n' ∧ n'.Matched := by
  have hmem : ∀ (rpc : CdsRpc A N Cb (ℕ × Args)) (new m : Msg A),
      m ∈ ({ n with rpc, calls := n.calls + 1, requests := n.requests ++ [new] } :
        Network A N Cb Args D).outstanding → m = new ∨ m ∈ n.outstanding := by
    intro rpc new m hm
    simp only [outstanding, List.mem_append, List.mem_singleton] at hm ⊢
    tauto
  cases tCbFunctor with
  | none =>
    refine ⟨_, rfl, h.wellFormed, h.idx_ne, fun m hm hne => ?_, h.ran⟩
    rcases hmem _ _ _ hm with rfl | hm
    · exact absurd rfl hne
    · exact h.matched m hm hne
  | some f =>
    obtain ⟨rpc, hinit, hwf, hpending⟩ := h.wellFormed.pending_initRpcRoute env now app nTimeout
      (f.mark n.calls)
    refine ⟨{ n with
        rpc, calls := n.calls + 1
        requests := n.requests ++ [⟨n.calls, app, n.rpc.nextIdx app⟩] },
      by rw [Network.call, Option.map_some, hinit]; rfl, hwf, h.idx_ne,
      fun m hm hne f' hf' => ?_, h.ran⟩
    simp only [hpending] at hf'
    rcases hmem _ _ _ hm with rfl | hm
    · rw [if_pos ⟨rfl, rfl⟩, Option.some_inj] at hf'
      rw [← hf']
      rfl
    · -- nothing that was on its way leads to the new callbacks
      rw [if_neg fun hboth => hfresh m hm hboth.1 hboth.2] at hf'
      exact h.matched m hm hne f' hf'

/-- Every step under the condition succeeds and keeps replies and calls matched. -/
theorem Matched.step (env : RpcEnv A N Cb (ℕ × Args)) (n : Network A N Cb Args D)
    (e : Event A N Cb Args D) (h : n.Matched) (hfresh : FreshIdx n e) :
    ∃ n', n.step env e = some n' ∧ n'.Matched := by
  cases e with
  | call now app nTimeout tCbFunctor => exact h.call env now app nTimeout tCbFunctor hfresh
  | excute k found => exact ⟨_, rfl, h.excute k found⟩
  | respond k tData => exact ⟨_, rfl, h.reply k _⟩
  | raise k => exact ⟨_, rfl, h.reply k _⟩
  | finish k =>
    have herase : ∀ m, m ∈ n.running.eraseIdx k → m ∈ n.running := fun m =>
      List.mem_of_mem_eraseIdx
    refine ⟨_, rfl, h.of_subset rfl (fun x hx => hx) (fun m hm => ?_) fun m hm => h.idx_ne m ?_⟩
    · simp only [outstanding, List.mem_append] at hm ⊢
      exact hm.imp_left (Or.imp_right (herase m))
    · exact List.mem_append.mpr ((List.mem_append.mp hm).imp_left (herase m))
  | deliver now k => exact h.deliver env now k
  | tick now t order => exact h.tick now t order
  | run =>
    refine ⟨_, rfl, h.of_subset rfl (fun x hx => ?_) (fun m hm => hm) h.idx_ne⟩
    cases hq : n.queue with
    | nil => simpa [hq] using hx
    | cons y ys =>
      simp only [hq, List.tail_cons, List.head?_cons, Option.toList_some, List.mem_append,
        List.mem_cons] at hx ⊢
      tauto

end Network

open Network

/-- **Correlation.** In every run of calls, executions, replies, ticks and callbacks, in any order,
in which no call is made under an index for which a request, an execution or a reply is on its way,
the operations succeed, and a callback that has been run because of a reply is one of the call whose
execution sent the reply. -/
theorem replies_correlated {A N Cb Args D : Type} [DecidableEq A] [DecidableEq N] [IntCast N]
    [Add N] [One N] [LE N] [DecidableLE N] (env : RpcEnv A N Cb (ℕ × Args))
    (es : List (Event A N Cb Args D))
    (hfresh : PartialMachine.Meets (Network.step env) FreshIdx Network.init es) :
    ∃ n, es.foldlM (Network.step env) Network.init = some n ∧
      ∀ p i, (some p, i) ∈ n.executed → i.tArgs.1 = p := by
  obtain ⟨n, hrun, h⟩ := PartialMachine.exists_run (Matched.step env) matched_init hfresh
  exact ⟨n, hrun, fun p i hi => h.ran _ (List.mem_append_right _ hi) p rfl⟩

/-- A call to application 7 that is answered. -/
theorem replies_correlated_answered : ∃ n,
    [.call 100 7 none (some ⟨some 1, 11, some 2, some 3⟩), .excute 0 true, .respond 0 5,
      .deliver 101 0, .run].foldlM
        (Network.step ⟨.above _, .above _⟩ : Network ℕ ℤ ℕ ℕ ℕ → Event ℕ ℤ ℕ ℕ ℕ → _)
        Network.init = some n ∧
      ∀ p i, (some p, i) ∈ n.executed → i.tArgs.1 = p :=
  replies_correlated _ _ (by decide +kernel)

/-- The first call times out while its reply is on its way, and its route is given up. The second
call gets the same index on a new route, and the reply to the first runs its callback. -/
theorem reply_to_wrong_call : ¬ ∀ es : List (Event ℕ ℤ ℕ ℕ ℕ),
    ∀ n ∈ es.foldlM (Network.step ⟨.above _, .above _⟩) Network.init,
      ∀ p i, (some p, i) ∈ n.executed → i.tArgs.1 = p := by
  intro hall
  let es : List (Event ℕ ℤ ℕ ℕ ℕ) :=
    [.call 100 7 (some 1) (some ⟨some 1, 11, some 2, some 3⟩), .excute 0 true, .respond 0 5,
      .tick 101 1 (.entries _ _), .run, .call 102 7 (some 1) (some ⟨some 1, 12, some 2, some 3⟩),
      .deliver 102 0, .run]
  have hran : ∃ n ∈ es.foldlM (Network.step ⟨.above _, .above _⟩) Network.init,
      (some 0, .fCb 1 5 (1, 12)) ∈ n.executed := by
    decide +kernel
  obtain ⟨n, hn, hmem⟩ := hran
  exact absurd (hall es n hn 0 _ hmem) (by decide)

end CodeTest.Rpc
