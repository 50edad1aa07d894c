import CodeTest.Rpc.Grouped

/-!
# Calls and packs together

`Coordinated` joins the accounts of the two modules: what a pack that is alive has got are the
reports of the callbacks run so far, and an id under which a pack is alive is used by its own parts
only. Every step under the condition keeps it (`Coordinated.step`).
-/

namespace CodeTest

namespace Rpc

open MultiTask

/-! ## What a step of a module changes -/

namespace Caller

variable {A N Cb Args D : Type} [DecidableEq A] [DecidableEq N] {s s' : Caller A N Cb Args D}

/-- The callbacks that were queued belong to different calls. -/
theorem Accounted.nodup_num (h : s.Accounted) :
    ((s.executed ++ s.queue).map fun i => i.tArgs.1).Nodup := by
  rw [h.ran]
  exact (Ledger.map_effect_sublist s.ended (effect_num s.calls)).nodup h.balanced.nodup

/-- A callback that was queued is that of a call that has ended. -/
theorem Accounted.of_mem (h : s.Accounted) {i : Invocation Cb (ℕ × Args) D}
    (hi : i ∈ s.executed ++ s.queue) : ∃ app f o, s.calls[i.tArgs.1]? = some (app, f) ∧
      s.endings i.tArgs.1 = [(i.tArgs.1, o)] ∧ (f.mark i.tArgs.1).callback o = some i := by
  rw [h.ran] at hi
  obtain ⟨⟨k, o⟩, hmem, heffect⟩ := List.mem_filterMap.mp hi
  obtain rfl := effect_num s.calls (k, o) i heffect
  obtain ⟨⟨app, f⟩, hcall, hcallback⟩ := Option.bind_eq_some_iff.mp heffect
  have hin : (i.tArgs.1, o) ∈ s.endings i.tArgs.1 := by
    simpa [endings] using hmem
  rcases h.pending_or_ended hcall with ⟨-, hnone, -⟩ | ⟨-, o', ho', -⟩
  · exact absurd hin (by simp [hnone])
  · obtain ⟨-, rfl⟩ : i.tArgs.1 = i.tArgs.1 ∧ o = o' := by simpa [ho'] using hin
    exact ⟨app, f, o, hcall, ho', hcallback⟩

variable [IntCast N] [Add N] [One N] [LE N] [DecidableLE N] {env : RpcEnv A N Cb (ℕ × Args)}

theorem call_frame {now : ℤ} {app : A} {nTimeout : Option N} {f : CbFunctor Cb Args}
    (hstep : s.step env (.call now app nTimeout f) = some s') :
    s'.calls = s.calls ++ [(app, f)] ∧ s'.executed = s.executed := by
  obtain ⟨x, -, heq⟩ := Option.bind_eq_some_iff.mp hstep
  cases heq
  exact ⟨rfl, rfl⟩

/-- Several calls, under indices that are not pending. -/
theorem Accounted.calls (env : RpcEnv A N Cb (ℕ × Args)) {X : Type} (now : X → ℤ) (app : X → A)
    (nTimeout : Option N) (f : X → CbFunctor Cb Args) (xs : List X) (h : s.Accounted)
    (hfree : PartialMachine.Meets (Caller.step env) FreeIdx s
      (xs.map fun x => .call (now x) (app x) nTimeout (f x))) :
    ∃ s', (xs.map fun x => Act.call (now x) (app x) nTimeout (f x)).foldlM (Caller.step env) s =
        some s' ∧ s'.Accounted ∧ s'.calls = s.calls ++ xs.map (fun x => (app x, f x)) ∧
      s'.executed = s.executed := by
  induction xs generalizing s with
  | nil => exact ⟨s, rfl, h, (List.append_nil _).symm, rfl⟩
  | cons x xs ih =>
    obtain ⟨s₁, hs₁, h₁⟩ := h.step env s _ hfree.1
    obtain ⟨s', hrun, h', hcalls, hexecuted⟩ := ih h₁ (hfree.2 s₁ hs₁)
    obtain ⟨hcalls₁, hexecuted₁⟩ := call_frame hs₁
    refine ⟨s', ?_, h', ?_, hexecuted.trans hexecuted₁⟩
    · rw [List.map_cons, List.foldlM_cons, hs₁]
      exact hrun
    · rw [hcalls, hcalls₁, List.append_assoc]
      rfl

/-- A reply and a tick. -/
def IsReply : Act A N Cb Args D → Prop
  | .onResponse _ _ _ _ | .onResponseError _ _ _ | .tick _ _ _ => True
  | _ => False

theorem reply_frame {e : Act A N Cb Args D} (he : IsReply e) (hstep : s.step env e = some s') :
    s'.calls = s.calls ∧ s'.executed = s.executed := by
  cases e with
  | call now app nTimeout f => exact he.elim
  | run => exact he.elim
  | onResponse now app nCbIdx tData =>
    obtain ⟨x, -, hstep⟩ := Option.bind_eq_some_iff.mp hstep
    obtain ⟨y, -, heq⟩ := Option.bind_eq_some_iff.mp hstep
    cases heq
    exact ⟨rfl, rfl⟩
  | onResponseError now app nCbIdx =>
    obtain ⟨x, -, hstep⟩ := Option.bind_eq_some_iff.mp hstep
    obtain ⟨y, -, heq⟩ := Option.bind_eq_some_iff.mp hstep
    cases heq
    exact ⟨rfl, rfl⟩
  | tick now t order =>
    rw [Caller.step] at hstep
    cases ht : s.rpc.timers.lookup t with
    | none =>
      rw [ht] at hstep
      cases hstep
      exact ⟨rfl, rfl⟩
    | some closure =>
      rw [ht] at hstep
      obtain ⟨x, -, hstep⟩ := Option.bind_eq_some_iff.mp hstep
      obtain ⟨y, -, heq⟩ := Option.bind_eq_some_iff.mp hstep
      cases heq
      exact ⟨rfl, rfl⟩

end Caller

end Rpc

/-! ## What a step of the packs changes -/

namespace MultiTask.Board

variable {N Cb Args V : Type} [DecidableEq N] {b b' : Board N Cb Args V}

/-- The packs of `b'` that are alive are so in `b`, with the same number. -/
def Shrinks (b b' : Board N Cb Args V) : Prop :=
  ∀ id tPack', b'.tasks.pack id = some tPack' →
    ∃ tPack, b.tasks.pack id = some tPack ∧ tPack'.tArgs.1 = tPack.tArgs.1

theorem Shrinks.refl (b : Board N Cb Args V) : b.Shrinks b := fun _ tPack h => ⟨tPack, h, rfl⟩

variable [IntCast N] [Add N] [One N] [LE N] [DecidableLE N] (newTimer : Allocator Unit)

theorem tick_frame (h : b.Accounted) (now : ℤ) (t : Addr)
    (order : PairsOrder Double (TaskPack (ℕ × Cb) (ℕ × Args) V)) :
    (b.step newTimer (.tick now t order)).2.packs = b.packs ∧
      (b.step newTimer (.tick now t order)).2.reports = b.reports ∧
      b.Shrinks (b.step newTimer (.tick now t order)).2 := by
  rw [Board.step]
  cases ht : b.tasks.timers.lookup t with
  | none => exact ⟨rfl, rfl, .refl b⟩
  | some u =>
    obtain ⟨es, tasks, hpop, hcheck, -, -, -, hpack⟩ := h.wellFormed.checkTimoutPack order now
    simp only [hpop, hcheck]
    refine ⟨trivial, trivial, fun id tPack' hp => ?_⟩
    rw [hpack] at hp
    split_ifs at hp
    exact ⟨tPack', hp, rfl⟩

theorem report_of_none {nPackId : Double} (hnone : b.tasks.pack nPackId = none) (nTaskId : ℕ)
    (tData : Value V) : (b.step newTimer (.onPartTaskFinish nPackId nTaskId tData)).2 = b := by
  simp only [Board.step, CoMultiTask.onPartTaskFinish_of_none hnone, hnone, Option.isSome_none,
    Option.toList_none, List.map_nil, List.append_nil, Bool.false_eq_true, if_false]

theorem report_frame (h : b.Accounted) {nPackId : Double}
    {tPack : TaskPack (ℕ × Cb) (ℕ × Args) V} (halive : b.tasks.pack nPackId = some tPack)
    (nTaskId : ℕ) (tData : Value V) :
    let b' := (b.step newTimer (.onPartTaskFinish nPackId nTaskId tData)).2
    b'.packs = b.packs ∧ b'.reports = b.reports ++ [(tPack.tArgs.1, nTaskId, tData)] ∧
      b.Shrinks b' := by
  obtain ⟨tasks, hfinish, -, hpack⟩ := h.wellFormed.onPartTaskFinish halive nTaskId tData
  simp only [Board.step, hfinish, halive]
  refine ⟨trivial, rfl, fun id tPack' hp => ?_⟩
  rw [hpack] at hp
  split_ifs at hp with hid
  · obtain rfl := Option.some_inj.mp hp
    exact ⟨tPack, hid ▸ halive, rfl⟩
  · exact ⟨tPack', hp, rfl⟩

/-- The pack that is started is the only new one. -/
theorem start_frame (h : b.Accounted) (now : ℤ) (p : Started Cb Args) (nTimeout : Option N)
    (hfree : b.tasks.pack b.tasks.nextId = none) :
    let x := b.step newTimer (.startMultiTask now p nTimeout)
    x.1 = some (b.tasks.nextId, (List.range p.nTasks).map fun i => i + 1) ∧
      x.2.packs = b.packs ++ [p] ∧ x.2.reports = b.reports ∧
      ∀ id tPack, x.2.tasks.pack id = some tPack →
        id = b.tasks.nextId ∧ tPack.tArgs.1 = b.packs.length ∨
          id ≠ b.tasks.nextId ∧ b.tasks.pack id = some tPack := by
  obtain ⟨-, hpack⟩ := h.wellFormed.startMultiTask newTimer now p.nTasks
    (p.fFinish.map fun f => (b.packs.length, f)) (p.fTimeout.map fun f => (b.packs.length, f))
    nTimeout (b.packs.length, p.tArgs) hfree
  refine ⟨?_, rfl, rfl, fun id tPack hp => ?_⟩
  · simp only [Board.step, CoMultiTask.startMultiTask]
    split <;> rfl
  · rw [Board.step, hpack] at hp
    split_ifs at hp with hid
    · obtain rfl := Option.some_inj.mp hp
      exact .inl ⟨hid, rfl⟩
    · exact .inr ⟨hid, hp⟩

end MultiTask.Board

namespace Rpc

open MultiTask

namespace MultiCaller

variable {A N Cb Args V : Type} [DecidableEq A] [DecidableEq N] {s s' : MultiCaller A N Cb Args V}

/-! ## The invariant -/

/-- What the callbacks run so far have reported for the pack with the number `c`. -/
def reported (s : MultiCaller A N Cb Args V) (c : ℕ) : List (ℕ × Value V) :=
  ((s.caller.executed.filterMap report).filter fun x => x.1.pack = c).map fun x =>
    (x.1.nTaskId, x.2)

/-- The call `k` is for a part. -/
def CallFor (s : MultiCaller A N Cb Args V) (k : ℕ) (part : Part) : Prop :=
  ∃ app f, s.caller.calls[k]? = some (app, f) ∧ f.tArgs = .inl part

/-- No callback of the call `k` has been run. -/
def Unheard (s : MultiCaller A N Cb Args V) (k : ℕ) : Prop :=
  k ∉ s.caller.executed.map fun i => i.tArgs.1

omit [DecidableEq A] [DecidableEq N] in
theorem mem_outstanding {part : Part} :
    part ∈ s.outstanding ↔ ∃ k, s.CallFor k part ∧ s.Unheard k := by
  simp only [outstanding, List.mem_filterMap, List.mem_range]
  constructor
  · rintro ⟨k, -, hk⟩
    split_ifs at hk with hmem
    obtain ⟨⟨app, f⟩, hcall, hpart⟩ := Option.bind_eq_some_iff.mp hk
    exact ⟨k, ⟨app, f, hcall, Sum.getLeft?_eq_some_iff.mp hpart⟩, hmem⟩
  · rintro ⟨k, ⟨app, f, hcall, hpart⟩, hmem⟩
    refine ⟨k, (List.getElem?_eq_some_iff.mp hcall).1, ?_⟩
    rw [if_neg hmem, hcall, Option.bind_some, hpart]
    rfl

omit [DecidableEq A] [DecidableEq N] in
theorem reported_congr (hexecuted : s'.caller.executed = s.caller.executed) (c : ℕ) :
    s'.reported c = s.reported c := by
  rw [reported, reported, hexecuted]

section Concat

variable {i : Invocation (Callback Cb) (ℕ × (Part ⊕ Args)) (Value V)}
  (hexecuted : s'.caller.executed = s.caller.executed ++ [i])

include hexecuted

omit [DecidableEq A] [DecidableEq N] in
theorem reported_concat_none (hi : report i = none) (c : ℕ) : s'.reported c = s.reported c := by
  rw [reported, hexecuted, List.filterMap_append, List.filterMap_cons_none hi, List.filterMap_nil,
    List.append_nil]
  rfl

omit [DecidableEq A] [DecidableEq N] in
theorem reported_concat {part : Part} {tData : Value V} (hi : report i = some (part, tData))
    (c : ℕ) : s'.reported c =
      if c = part.pack then s.reported part.pack ++ [(part.nTaskId, tData)] else s.reported c := by
  rw [reported, hexecuted, List.filterMap_append, List.filterMap_cons_some hi, List.filterMap_nil,
    List.filter_append, List.map_append]
  split_ifs with hc
  · subst hc
    rw [List.filter_cons_of_pos (by simp)]
    rfl
  · rw [List.filter_cons_of_neg (by simpa using Ne.symm hc)]
    exact List.append_nil _

end Concat

/-- The groups are those of the packs, an id under which a pack is alive is the one of its parts,
and is that of its parts alone among the parts that may still report; a pack has got what was
reported for it, as long as it is alive. -/
structure Coordinated (s : MultiCaller A N Cb Args V) : Prop where
  caller : s.caller.Accounted
  board : s.board.Accounted
  grouped : Grouped s.caller.calls s.groups
  length_eq : s.groups.length = s.board.packs.length
  packs : ∀ (c : ℕ) p tCalls, s.board.packs[c]? = some p → s.groups[c]? = some tCalls →
    p.nTasks = tCalls.length ∧ p.fFinish.isSome
  id_eq : ∀ id tPack, s.board.tasks.pack id = some tPack → ∀ k part, s.CallFor k part →
    part.pack = tPack.tArgs.1 → part.nPackId = id
  aimed : ∀ part ∈ s.outstanding, ∀ tPack, s.board.tasks.pack part.nPackId = some tPack →
    tPack.tArgs.1 = part.pack
  reports_prefix : ∀ c, s.board.reportsOf c <+: s.reported c
  reports_alive : ∀ id tPack, s.board.tasks.pack id = some tPack →
    s.board.reportsOf tPack.tArgs.1 = s.reported tPack.tArgs.1

theorem coordinated_init (now : ℤ) : (init now : MultiCaller A N Cb Args V).Coordinated := by
  have hnone : ∀ id, (init now : MultiCaller A N Cb Args V).board.tasks.pack id = none := by
    intro id
    simp [init, Board.init, CoMultiTask.pack, CoMultiTask.init, TimeOutManager.get_eq]
  exact {
    caller := Caller.accounted_init
    board := Board.accounted_init now
    grouped := .nil
    length_eq := rfl
    packs := fun c p tCalls h => absurd h (by simp [init, Board.init])
    id_eq := fun id tPack h => absurd h (by simp [hnone])
    aimed := fun part hpart tPack h => absurd h (by simp [hnone])
    reports_prefix := fun c => List.nil_prefix
    reports_alive := fun id tPack h => absurd h (by simp [hnone]) }

namespace Coordinated

/-- A step that starts no pack. -/
theorem of_shrinks (h : s.Coordinated) (hcaller : s'.caller.Accounted)
    (hboard : s'.board.Accounted) (hgrouped : Grouped s'.caller.calls s'.groups)
    (hold : ∀ k part, s'.CallFor k part → s.CallFor k part)
    (hexecuted : s.caller.executed ⊆ s'.caller.executed) (hgroups : s'.groups = s.groups)
    (hpacks : s'.board.packs = s.board.packs) (hshrinks : s.board.Shrinks s'.board)
    (hreported : ∀ c, s'.board.reportsOf c <+: s'.reported c)
    (halive : ∀ id tPack, s.board.tasks.pack id = some tPack →
      s'.board.reportsOf tPack.tArgs.1 = s'.reported tPack.tArgs.1) : s'.Coordinated where
  caller := hcaller
  board := hboard
  grouped := hgrouped
  length_eq := by rw [hgroups, hpacks, h.length_eq]
  packs c p tCalls hp hgroup := h.packs c p tCalls (hpacks ▸ hp) (hgroups ▸ hgroup)
  id_eq id tPack' hp k part hk hpack := by
    obtain ⟨tPack, hp, hnum⟩ := hshrinks id tPack' hp
    exact h.id_eq id tPack hp k part (hold k part hk) (hpack.trans hnum)
  aimed part hpart tPack' hp := by
    obtain ⟨tPack, hp, hnum⟩ := hshrinks part.nPackId tPack' hp
    obtain ⟨k, hk, hunheard⟩ := mem_outstanding.mp hpart
    rw [hnum]
    refine h.aimed part (mem_outstanding.mpr ⟨k, hold k part hk, fun hmem => hunheard ?_⟩) tPack hp
    exact List.map_subset _ hexecuted hmem
  reports_prefix := hreported
  reports_alive id tPack' hp := by
    obtain ⟨tPack, hp, hnum⟩ := hshrinks id tPack' hp
    rw [hnum]
    exact halive id tPack hp

/-- A step of the calls alone, that runs no callback. -/
theorem of_caller (h : s.Coordinated) {caller : Caller A N (Callback Cb) (Part ⊕ Args) (Value V)}
    (hcaller : caller.Accounted) (hgrouped : Grouped caller.calls s.groups)
    (hold : ∀ k part, ({ s with caller } : MultiCaller A N Cb Args V).CallFor k part →
      s.CallFor k part)
    (hexecuted : caller.executed = s.caller.executed) :
    ({ s with caller } : MultiCaller A N Cb Args V).Coordinated := by
  refine h.of_shrinks hcaller h.board hgrouped hold (by simp [hexecuted]) rfl rfl (.refl _) ?_ ?_
  · intro c
    rw [reported_congr (s := s) hexecuted]
    exact h.reports_prefix c
  · intro id tPack hp
    rw [reported_congr (s := s) hexecuted]
    exact h.reports_alive id tPack hp

/-- A step of the packs alone, that reports nothing. -/
theorem of_board (h : s.Coordinated) {board : Board N Cb Args V} (hboard : board.Accounted)
    (hpacks : board.packs = s.board.packs) (hreports : board.reports = s.board.reports)
    (hshrinks : s.board.Shrinks board) :
    ({ s with board } : MultiCaller A N Cb Args V).Coordinated := by
  have hof : ∀ c, board.reportsOf c = s.board.reportsOf c := by
    intro c
    rw [Board.reportsOf, Board.reportsOf, hreports]
  refine h.of_shrinks h.caller hboard h.grouped (fun k part hk => hk) (fun i hi => hi) rfl hpacks
    hshrinks ?_ ?_
  · intro c
    rw [hof]
    exact h.reports_prefix c
  · intro id tPack hp
    rw [hof]
    exact h.reports_alive id tPack hp

/-- A call number that a callback was queued for. -/
theorem callFor_of_report (h : s.Coordinated)
    {i : Invocation (Callback Cb) (ℕ × (Part ⊕ Args)) (Value V)} {part : Part} {tData : Value V}
    (hi : i ∈ s.caller.executed ++ s.caller.queue) (hreport : report i = some (part, tData)) :
    ∃ app o, s.caller.calls[i.tArgs.1]? = some (app, partFunctor part) ∧
      s.caller.endings i.tArgs.1 = [(i.tArgs.1, o)] ∧ tData = partData o := by
  obtain ⟨app, f, o, hcall, hended, hcallback⟩ := h.caller.of_mem hi
  have hpart : f.tArgs = .inl part := by
    have := tArgs_of_report hreport
    rwa [CbFunctor.tArgs_of_callback hcallback] at this
  obtain ⟨rfl, -⟩ := h.grouped.exists_group _ app f part hcall hpart
  obtain ⟨i', hcallback', hreport'⟩ := @report_callback Cb Args V part i.tArgs.1 o
  obtain rfl := Option.some_inj.mp (hcallback'.symm.trans hcallback)
  obtain ⟨-, rfl⟩ := Prod.mk.inj (Option.some_inj.mp (hreport.symm.trans hreport'))
  exact ⟨app, o, hcall, hended, rfl⟩

/-- What was reported for a pack is what calls for its parts have ended with. -/
theorem of_mem_reported (h : s.Coordinated) {c i : ℕ} {tData : Value V}
    (hmem : (i, tData) ∈ s.reported c) : ∃ j k o, i = j + 1 ∧ s.IsPart c j k ∧
      s.caller.endings k = [(k, o)] ∧ tData = partData o := by
  obtain ⟨⟨part, tData'⟩, hpart, heq⟩ := List.mem_map.mp hmem
  obtain ⟨rfl, rfl⟩ := Prod.mk.inj heq
  obtain ⟨hpart, hc⟩ := List.mem_filter.mp hpart
  obtain ⟨inv, hinv, hreport⟩ := List.mem_filterMap.mp hpart
  obtain ⟨app, o, hcall, hended, hdata⟩ := h.callFor_of_report (List.mem_append_left _ hinv) hreport
  obtain rfl : part.pack = c := decide_eq_true_eq.mp hc
  obtain ⟨-, tCalls, j, hgroup, htask, hj⟩ := h.grouped.exists_group _ app _ part hcall rfl
  refine ⟨j, _, o, htask, ⟨tCalls, app, part.nPackId, hgroup, hj, ?_⟩, hended, hdata⟩
  rw [← htask]
  exact hcall

/-- No part reports twice. -/
theorem nodup_reported (h : s.Coordinated) (c : ℕ) : ((s.reported c).map Prod.fst).Nodup := by
  have hnodup := h.caller.nodup_num
  rw [List.map_append] at hnodup
  have hexec := List.pairwise_map.mp hnodup.of_append_left
  rw [reported, List.map_map, List.Nodup, List.pairwise_map, List.pairwise_filter,
    List.pairwise_filterMap]
  refine hexec.imp_of_mem fun {i i'} hi hi' hne x hx x' hx' hc hc' heq => hne ?_
  obtain ⟨app, o, hcall, -⟩ := h.callFor_of_report (List.mem_append_left _ hi) hx
  obtain ⟨app', o', hcall', -⟩ := h.callFor_of_report (List.mem_append_left _ hi') hx'
  refine h.grouped.unique _ _ app app' _ _ x.1 x'.1 hcall hcall' rfl rfl ?_ heq
  rw [decide_eq_true_eq.mp hc, decide_eq_true_eq.mp hc']

/-- The task of a part is one of the tasks of its pack. -/
theorem range_part (h : s.Coordinated) {k : ℕ} {part : Part} (hk : s.CallFor k part) {id : Double}
    {tPack : TaskPack (ℕ × Cb) (ℕ × Args) V} (hp : s.board.tasks.pack id = some tPack)
    (hnum : tPack.tArgs.1 = part.pack) : 1 ≤ part.nTaskId ∧ part.nTaskId ≤ tPack.nTasks := by
  obtain ⟨app, f, hcall, hf⟩ := hk
  obtain ⟨-, tCalls, i, hgroup, htask, hi⟩ := h.grouped.exists_group k app f part hcall hf
  obtain ⟨p, hpack, hwaiting⟩ := h.board.waiting id tPack hp
  have hn := (h.packs part.pack p tCalls (hnum ▸ hpack) hgroup).1
  have hlt := (List.getElem?_eq_some_iff.mp hi).1
  rw [hwaiting.stored, htask]
  show 1 ≤ i + 1 ∧ i + 1 ≤ p.nTasks
  omega

section Step

variable [IntCast N] [Add N] [One N] [LE N] [DecidableLE N]
  (env : RpcEnv A N (Callback Cb) (ℕ × (Part ⊕ Args))) (newTimer : Allocator Unit)

/-- A callback is run. -/
theorem run (h : s.Coordinated) :
    ∃ s', s.step env newTimer .run = some s' ∧ s'.Coordinated := by
  obtain ⟨caller, hstep, hcaller⟩ := h.caller.step env s.caller .run trivial
  obtain rfl := Option.some_inj.mp hstep
  refine ⟨_, rfl, ?_⟩
  cases hqueue : s.caller.queue with
  | nil =>
    rw [hqueue] at hcaller
    exact h.of_caller hcaller h.grouped (fun k part hk => hk) (List.append_nil _)
  | cons i queue =>
    rw [hqueue] at hcaller
    have hi : i ∈ s.caller.executed ++ s.caller.queue := by simp [hqueue]
    have hsub : s.caller.executed ⊆ s.caller.executed ++ [i] := List.subset_append_left _ _
    rw [List.head?_cons, Option.elim_some, execute_eq]
    cases hreport : report i with
    | none =>
      refine h.of_shrinks hcaller h.board h.grouped (fun k part hk => hk) hsub rfl rfl (.refl _)
        ?_ ?_
      · intro c
        rw [reported_concat_none (s := s) rfl hreport]
        exact h.reports_prefix c
      · intro id tPack hp
        rw [reported_concat_none (s := s) rfl hreport]
        exact h.reports_alive id tPack hp
    | some x =>
      obtain ⟨part, tData⟩ := x
      obtain ⟨app, o, hcall, -⟩ := h.callFor_of_report hi hreport
      have hfor : s.CallFor i.tArgs.1 part := ⟨app, _, hcall, rfl⟩
      rw [Option.elim_some]
      cases halive : s.board.tasks.pack part.nPackId with
      | none =>
        rw [Board.report_of_none newTimer halive]
        refine h.of_shrinks hcaller h.board h.grouped (fun k part hk => hk) hsub rfl rfl (.refl _)
          ?_ ?_
        · intro c
          rw [reported_concat (s := s) rfl hreport]
          split_ifs with hc
          · exact hc ▸ (h.reports_prefix part.pack).trans (List.prefix_append _ _)
          · exact h.reports_prefix c
        · -- the part is not one of a pack that is alive
          intro id tPack hp
          rw [reported_concat (s := s) rfl hreport, if_neg]
          · exact h.reports_alive id tPack hp
          · intro hc
            rw [h.id_eq id tPack hp _ part hfor hc.symm, hp] at halive
            exact absurd halive (by simp)
      | some tPack =>
        have hunheard : s.Unheard i.tArgs.1 := by
          have hnodup := h.caller.nodup_num
          rw [hqueue, List.map_append] at hnodup
          intro hmem
          exact (List.disjoint_of_nodup_append hnodup) hmem (List.mem_cons_self)
        have hnum := h.aimed part (mem_outstanding.mpr ⟨_, hfor, hunheard⟩) tPack halive
        obtain ⟨hpacks, hreports, hshrinks⟩ :=
          Board.report_frame newTimer h.board halive part.nTaskId tData
        have hboard := h.board.onPartTaskFinish newTimer part.nPackId part.nTaskId tData
          fun tPack' hp' => by
            obtain rfl := Option.some_inj.mp (halive.symm.trans hp')
            exact h.range_part hfor halive hnum
        have hof := Board.reportsOf_append hreports
        have hall := h.reports_alive part.nPackId tPack halive
        rw [hnum] at hof hall
        refine h.of_shrinks hcaller hboard h.grouped (fun k part hk => hk) hsub rfl hpacks hshrinks
          ?_ ?_
        · intro c
          rw [hof, reported_concat (s := s) rfl hreport, hall]
          split_ifs
          · exact List.prefix_rfl
          · exact h.reports_prefix c
        · intro id tPack' hp
          rw [hof, reported_concat (s := s) rfl hreport, hall]
          split_ifs
          · rfl
          · exact h.reports_alive id tPack' hp

omit [IntCast N] [Add N] [One N] [LE N] [DecidableLE N] in
theorem pack_lt (h : s.Coordinated) {k : ℕ} {part : Part} (hk : s.CallFor k part) :
    part.pack < s.board.packs.length := by
  obtain ⟨app, f, hcall, hf⟩ := hk
  exact h.length_eq ▸ h.grouped.pack_lt hcall hf

omit [IntCast N] [Add N] [One N] [LE N] [DecidableLE N] in
/-- Nothing is reported for a pack that has not been started. -/
theorem reported_length (h : s.Coordinated) : s.reported s.board.packs.length = [] := by
  rw [List.eq_nil_iff_forall_not_mem]
  rintro ⟨i, tData⟩ hmem
  obtain ⟨j, k, o, -, ⟨tCalls, app, nPackId, -, -, hcall⟩, -, -⟩ := h.of_mem_reported hmem
  exact absurd (h.pack_lt ⟨app, _, hcall, rfl⟩) (lt_irrefl _)

/-- A pack is started and its calls are made. -/
theorem multiCall (h : s.Coordinated) (now : ℕ → ℤ) (tCalls : List A)
    (nTimeout1 nTimeout2 : Option N) (fFinish fTimeout : Option Cb) (tArgs : Args)
    (hallowed : Allowed env s (.multiCall now tCalls nTimeout1 nTimeout2 fFinish fTimeout tArgs)) :
    ∃ s', s.multiCall env newTimer now tCalls nTimeout1 nTimeout2 fFinish fTimeout tArgs =
      some s' ∧ s'.Coordinated := by
  rw [MultiCaller.multiCall]
  cases hfinish : fFinish with
  | none => exact ⟨s, rfl, h⟩
  | some f =>
    obtain ⟨hne, hfree, hunused, hcalls⟩ := hallowed (by rw [hfinish]; rfl)
    set p : Started Cb Args := ⟨tCalls.length, some f, fTimeout, tArgs⟩ with hp
    have hboard := h.board.startMultiTask newTimer (now 0) p nTimeout1
      (List.length_pos_iff.mpr hne) hfree
    obtain ⟨hids, hpacks, hreports, hpack⟩ :=
      Board.start_frame newTimer h.board (now 0) p nTimeout1 hfree
    obtain ⟨caller, hrun, hcaller, hlog, hexecuted⟩ :=
      h.caller.calls env (fun x : A × ℕ => now x.2) (fun x => x.1) nTimeout2
        (fun x => partFunctor ⟨s.board.packs.length, s.board.tasks.nextId, x.2⟩) _ hcalls
    set start := s.board.step newTimer (.startMultiTask (now 0) p nTimeout1)
    refine ⟨{ caller, board := start.2, groups := s.groups ++ [tCalls] }, ?_, ?_⟩
    · rw [if_neg (by simp)]
      show (start.1.bind fun ids => ((partCalls now tCalls nTimeout2 s.board.packs.length ids.1
        ids.2).foldlM (Caller.step env) s.caller).bind fun caller => some _) = _
      rw [hids, Option.bind_some, partCalls, hrun]
      rfl
    have hparts := @Grouped.getElem?_parts A Cb Args tCalls s.board.packs.length
      s.board.tasks.nextId
    -- a call for a part is an old one, or is for the new pack
    have hcases : ∀ k part, CallFor ⟨caller, start.2, s.groups ++ [tCalls]⟩ k part →
        s.CallFor k part ∨
          part.pack = s.board.packs.length ∧ part.nPackId = s.board.tasks.nextId := by
      rintro k part ⟨app, f', hcall, hf'⟩
      rw [hlog] at hcall
      rcases Grouped.getElem?_append_cases hcall with hcall | ⟨j, -, hj⟩
      · exact .inl ⟨app, f', hcall, hf'⟩
      · obtain ⟨app', -, heq⟩ := Option.map_eq_some_iff.mp ((hparts j).symm.trans hj)
        obtain ⟨-, rfl⟩ := Prod.mk.inj heq
        obtain rfl := Sum.inl.inj hf'
        exact .inr ⟨rfl, rfl⟩
    have hreported : ∀ c, reported ⟨caller, start.2, s.groups ++ [tCalls]⟩ c = s.reported c :=
      reported_congr (s := s) hexecuted
    have hof : ∀ c, start.2.reportsOf c = s.board.reportsOf c := by
      intro c
      rw [Board.reportsOf, Board.reportsOf, hreports]
    refine ⟨hcaller, hboard, ?_, ?_, ?_, ?_, ?_, ?_, ?_⟩
    · show Grouped caller.calls (s.groups ++ [tCalls])
      rw [hlog]
      exact h.grouped.append_parts tCalls s.board.tasks.nextId (h.length_eq ▸ hparts)
    · show (s.groups ++ [tCalls]).length = start.2.packs.length
      rw [hpacks, List.length_append, List.length_append, h.length_eq]
      rfl
    · intro c p' tCalls' hp' hgroup
      rw [hpacks] at hp'
      rcases Grouped.getElem?_append_cases hp' with hp' | ⟨j, rfl, hj⟩
      · have hlt := (List.getElem?_eq_some_iff.mp hp').1
        rw [List.getElem?_append_left (h.length_eq ▸ hlt)] at hgroup
        exact h.packs c p' tCalls' hp' hgroup
      · obtain rfl := List.mem_singleton.mp (List.mem_of_getElem? hj)
        rw [← h.length_eq, List.getElem?_append_right (Nat.le_add_right _ _)] at hgroup
        obtain rfl := List.mem_singleton.mp (List.mem_of_getElem? hgroup)
        exact ⟨rfl, rfl⟩
    · intro id tPack hp' k part hk hnum
      rcases hpack id tPack hp' with ⟨rfl, hnew⟩ | ⟨-, hp'⟩ <;>
        rcases hcases k part hk with hk | ⟨hpart, hid⟩
      · exact absurd (h.pack_lt hk) (by omega)
      · exact hid
      · exact h.id_eq id tPack hp' k part hk hnum
      · obtain ⟨p', hp'', -⟩ := h.board.waiting id tPack hp'
        exact absurd (List.getElem?_eq_some_iff.mp hp'').1 (by omega)
    · intro part hpart tPack hp'
      obtain ⟨k, hk, hunheard⟩ := mem_outstanding.mp hpart
      rcases hpack part.nPackId tPack hp' with ⟨hid, hnew⟩ | ⟨hid, hp'⟩ <;>
        rcases hcases k part hk with hk | ⟨hpart, hid'⟩
      · exact absurd hid
          (hunused part (mem_outstanding.mpr ⟨k, hk, fun hmem => hunheard (hexecuted ▸ hmem)⟩))
      · rw [hnew, hpart]
      · exact h.aimed part
          (mem_outstanding.mpr ⟨k, hk, fun hmem => hunheard (hexecuted ▸ hmem)⟩) tPack hp'
      · exact absurd hid' hid
    · intro c
      rw [hreported, hof]
      exact h.reports_prefix c
    · intro id tPack hp'
      rw [hreported, hof]
      rcases hpack id tPack hp' with ⟨-, hnew⟩ | ⟨-, hp'⟩
      · rw [hnew, h.reported_length]
        exact List.prefix_nil.mp (h.reported_length ▸ h.reports_prefix s.board.packs.length)
      · exact h.reports_alive id tPack hp'

/-- A reply and a tick of the calls. -/
theorem reply (h : s.Coordinated) {e : Act A N (Callback Cb) (Part ⊕ Args) (Value V)}
    (he : Caller.IsReply e) (hfree : Caller.FreeIdx s.caller e) :
    ∃ caller, s.caller.step env e = some caller ∧
      ({ s with caller } : MultiCaller A N Cb Args V).Coordinated := by
  obtain ⟨caller, hstep, hcaller⟩ := h.caller.step env s.caller e hfree
  obtain ⟨hcalls, hexecuted⟩ := Caller.reply_frame he hstep
  refine ⟨caller, hstep, h.of_caller hcaller (hcalls ▸ h.grouped) ?_ hexecuted⟩
  rintro k part ⟨app, f, hcall, hf⟩
  exact ⟨app, f, hcalls ▸ hcall, hf⟩

/-- A call that is not for a part. -/
theorem call (h : s.Coordinated) (now : ℤ) (app : A) (nTimeout : Option N) (f : CbFunctor Cb Args)
    (hfree : s.caller.rpc.pending app (s.caller.rpc.nextIdx app) = none) :
    ∃ caller, s.caller.step env (.call now app nTimeout (otherFunctor f)) = some caller ∧
      ({ s with caller } : MultiCaller A N Cb Args V).Coordinated := by
  obtain ⟨caller, hstep, hcaller⟩ := h.caller.call env now app nTimeout (otherFunctor f) hfree
  obtain ⟨hcalls, hexecuted⟩ := Caller.call_frame hstep
  refine ⟨caller, hstep, h.of_caller hcaller ?_ ?_ hexecuted⟩
  · rw [hcalls]
    exact h.grouped.append_other app f
  · rintro k part ⟨app', f', hcall, hf'⟩
    rw [hcalls] at hcall
    rcases Grouped.getElem?_append_cases hcall with hcall | ⟨j, -, hj⟩
    · exact ⟨app', f', hcall, hf'⟩
    · obtain ⟨-, rfl⟩ := Prod.mk.inj (List.mem_singleton.mp (List.mem_of_getElem? hj))
      exact absurd hf' (by simp [otherFunctor])

/-- Every step that is allowed succeeds and keeps the accounts. -/
theorem step (s : MultiCaller A N Cb Args V) (e : MultiEvent A N Cb Args V) (h : s.Coordinated)
    (hallowed : Allowed env s e) : ∃ s', s.step env newTimer e = some s' ∧ s'.Coordinated := by
  cases e with
  | multiCall now tCalls nTimeout1 nTimeout2 fFinish fTimeout tArgs =>
    exact h.multiCall env newTimer now tCalls nTimeout1 nTimeout2 fFinish fTimeout tArgs hallowed
  | call now app nTimeout f =>
    obtain ⟨caller, hstep, h'⟩ := h.call env now app nTimeout f hallowed
    exact ⟨_, by rw [MultiCaller.step, hstep]; rfl, h'⟩
  | onResponse now app nCbIdx tData =>
    obtain ⟨caller, hstep, h'⟩ :=
      h.reply env (e := .onResponse now app nCbIdx tData) trivial trivial
    exact ⟨_, by rw [MultiCaller.step, hstep]; rfl, h'⟩
  | onResponseError now app nCbIdx =>
    obtain ⟨caller, hstep, h'⟩ := h.reply env (e := .onResponseError now app nCbIdx) trivial trivial
    exact ⟨_, by rw [MultiCaller.step, hstep]; rfl, h'⟩
  | tick now t order =>
    obtain ⟨caller, hstep, h'⟩ := h.reply env (e := .tick now t order) trivial trivial
    exact ⟨_, by rw [MultiCaller.step, hstep]; rfl, h'⟩
  | run => exact h.run env newTimer
  | packTick now t order =>
    obtain ⟨hpacks, hreports, hshrinks⟩ := Board.tick_frame newTimer h.board now t order
    exact ⟨_, rfl, h.of_board (h.board.tick newTimer now t order) hpacks hreports hshrinks⟩
  | packRun =>
    exact ⟨_, rfl, h.of_board (h.board.step newTimer s.board .run trivial) rfl rfl (.refl _)⟩

end Step

end Coordinated

end MultiCaller

end Rpc

end CodeTest
