import CodeTest.Rpc.Coordinated

/-!
# The results of a pack are the outcomes of its calls

In every run a pack that is alive waits for a call that is still open. A pack that is not has
finished with the outcomes of all its calls, under their positions, or has timed out with those of
some, and the callback for that was queued once (`collected`).
-/

namespace CodeTest

namespace MultiTask

variable {V : Type} {reports : List (ℕ × Value V)} {i : ℕ} {tData : Value V}

theorem mem_of_lastData (h : lastData reports i = some tData) : (i, tData) ∈ reports := by
  obtain ⟨⟨i', tData'⟩, hlast, rfl⟩ := Option.map_eq_some_iff.mp h
  obtain ⟨hmem, hi⟩ := List.mem_filter.mp (List.mem_of_getLast? hlast)
  exact (decide_eq_true_eq.mp hi : i' = i) ▸ hmem

end MultiTask

namespace Rpc

open MultiTask

namespace MultiCaller

variable {A N Cb Args V : Type} [DecidableEq A] [DecidableEq N] {s : MultiCaller A N Cb Args V}

namespace Coordinated

/-- The call for a part is open, or what it has ended with was reported. -/
theorem open_or_reported (h : s.Coordinated) {c i k : ℕ} (hk : s.IsPart c i k) :
    s.Open k ∨ ∃ tData, (i + 1, tData) ∈ s.reported c := by
  obtain ⟨tCalls, app, nPackId, -, -, hcall⟩ := hk
  rcases h.caller.pending_or_ended hcall with ⟨hpending, -, -⟩ | ⟨-, o, -, hran⟩
  · exact .inl (.inl ⟨app, _, hcall, hpending⟩)
  · obtain ⟨inv, hcallback, hreport⟩ := @report_callback Cb Args V ⟨c, nPackId, i + 1⟩ k o
    rw [hcallback, Option.toList_some] at hran
    have hmem : inv ∈ s.caller.invocations k := by simp [hran]
    obtain ⟨hmem, hnum⟩ := List.mem_filter.mp hmem
    rcases List.mem_append.mp hmem with hmem | hmem
    · refine .inr ⟨partData o, List.mem_map.mpr
        ⟨(⟨c, nPackId, i + 1⟩, partData o), List.mem_filter.mpr ⟨?_, ?_⟩, rfl⟩⟩
      · exact List.mem_filterMap.mpr ⟨inv, hmem, hreport⟩
      · simp
    · exact .inl (.inr ⟨inv, hmem, decide_eq_true_eq.mp hnum⟩)

/-- A pack that is alive waits for a call. -/
theorem exists_open (h : s.Coordinated) {c : ℕ} {tCalls : List A} {p : Started Cb Args}
    (hgroup : s.groups[c]? = some tCalls) (hp : s.board.packs[c]? = some p)
    (halive : s.board.Alive c) (hnot : ¬ Complete p.nTasks (s.board.reportsOf c)) :
    ∃ i k, s.IsPart c i k ∧ s.Open k := by
  obtain ⟨id, tPack, hpack, rfl⟩ := halive
  obtain ⟨hn, -⟩ := h.packs _ p tCalls hp hgroup
  rw [Complete] at hnot
  push Not at hnot
  obtain ⟨i, hpos, hle, hmissing⟩ := hnot
  obtain ⟨i, rfl⟩ := Nat.exists_eq_succ_of_ne_zero (Nat.one_le_iff_ne_zero.mp hpos)
  obtain ⟨app, happ⟩ : ∃ app, tCalls[i]? = some app :=
    ⟨_, List.getElem?_eq_getElem (by omega)⟩
  obtain ⟨k, nPackId, hk⟩ := h.grouped.exists_call _ tCalls i app hgroup happ
  have hpart : s.IsPart tPack.tArgs.1 i k := ⟨tCalls, app, nPackId, hgroup, happ, hk⟩
  rcases h.open_or_reported hpart with hopen | ⟨tData, hmem⟩
  · exact ⟨i, k, hpart, hopen⟩
  · rw [← h.reports_alive id tPack hpack] at hmem
    exact absurd (List.mem_map_of_mem hmem) hmissing

/-- What a pack has got under a position is the outcome of the call for it. -/
theorem outcome_of_lookup (h : s.Coordinated) {c i : ℕ} {tData : Value V}
    (hi : (results (s.board.reportsOf c)).lookup i = some tData) :
    ∃ j k o, i = j + 1 ∧ s.IsPart c j k ∧ s.caller.endings k = [(k, o)] ∧
      tData = (partData o).or .emptyTable := by
  rw [lookup_results] at hi
  obtain ⟨tData', hlast, rfl⟩ := Option.map_eq_some_iff.mp hi
  obtain ⟨j, k, o, hj, hpart, hended, rfl⟩ :=
    h.of_mem_reported ((h.reports_prefix c).subset (mem_of_lastData hlast))
  exact ⟨j, k, o, hj, hpart, hended, rfl⟩

theorem nodup_reportsOf (h : s.Coordinated) (c : ℕ) :
    ((s.board.reportsOf c).map Prod.fst).Nodup :=
  ((h.reports_prefix c).sublist.map Prod.fst).nodup (h.nodup_reported c)

end Coordinated

/-- **A pack collects the outcomes of its calls.** In every run of `multiCall`s and other calls, of
replies of any kind, ticks of the timers of both modules and callbacks, in any order, in which every
pack has a call, no call is made under an index that is pending, and no pack is started under an id
that belongs to a pack that is alive or to a part that may still report: no part reports twice, and
a pack that is alive has a call that is open. A pack that is not alive has for each position what
the call for it has ended with, `{}` standing for a timeout, an error, `nil` and `false`; it has
them for all its calls, and `fFinish` was queued with them, once, or for some, and `fTimeout` was,
if there is one. -/
theorem collected [IntCast N] [Add N] [One N] [LE N] [DecidableLE N]
    (env : RpcEnv A N (Callback Cb) (ℕ × (Part ⊕ Args))) (newTimer : Allocator Unit) (now : ℤ)
    (es : List (MultiEvent A N Cb Args V))
    (hallowed : PartialMachine.Meets (step env newTimer) (Allowed env) (init now) es) :
    ∃ s, es.foldlM (step env newTimer) (init now) = some s ∧ ∀ (c : ℕ) tCalls p,
      s.groups[c]? = some tCalls → s.board.packs[c]? = some p →
      ((s.board.reportsOf c).map Prod.fst).Nodup ∧
      ((s.board.Alive c ∧ s.board.invocations c = [] ∧ ∃ i k, s.IsPart c i k ∧ s.Open k) ∨
      (¬ s.board.Alive c ∧ ∃ tResult : Table ℕ (Value V),
        (∀ i tData, tResult.lookup i = some tData → ∃ j k o, i = j + 1 ∧ s.IsPart c j k ∧
          s.caller.endings k = [(k, o)] ∧ tData = (partData o).or .emptyTable) ∧
        ((∀ i < tCalls.length, i + 1 ∈ tResult) ∧ (∃ f, p.fFinish = some f ∧
            s.board.invocations c = [.fFinish (c, f) tResult (c, p.tArgs)]) ∨
          (∃ i < tCalls.length, i + 1 ∉ tResult) ∧
            s.board.invocations c =
              (p.fTimeout.map fun f => .fTimeout (c, f) tResult).toList))) := by
  obtain ⟨s, hrun, h⟩ :=
    PartialMachine.exists_run (Coordinated.step env newTimer) (coordinated_init now) hallowed
  refine ⟨s, hrun, fun c tCalls p hgroup hp => ⟨h.nodup_reportsOf c, ?_⟩⟩
  obtain ⟨hn, hfinish⟩ := h.packs c p tCalls hp hgroup
  rcases h.board.alive_or_ended hp with ⟨halive, -, hnone, hnot⟩ | ⟨hnot, o, -, hdecided, hran⟩
  · exact .inl ⟨halive, hnone, h.exists_open hgroup hp halive hnot⟩
  refine .inr ⟨hnot, results (s.board.reportsOf c), fun i tData => h.outcome_of_lookup, ?_⟩
  have hcomplete : Complete p.nTasks (s.board.reportsOf c) ↔
      ∀ i < tCalls.length, i + 1 ∈ results (s.board.reportsOf c) := by
    simp only [mem_results]
    constructor
    · exact fun hall i hi => hall (i + 1) (Nat.le_add_left 1 i) (by omega)
    · intro hall i hpos hle
      obtain ⟨i, rfl⟩ := Nat.exists_eq_succ_of_ne_zero (Nat.one_le_iff_ne_zero.mp hpos)
      exact hall i (by omega)
  cases o with
  | finish =>
    obtain ⟨f, hf⟩ := Option.isSome_iff_exists.mp hfinish
    refine .inl ⟨hcomplete.mp (hdecided.finish_iff.mp rfl), f, hf, ?_⟩
    rw [hran, Started.callback, hf]
    rfl
  | timeout =>
    refine .inr ⟨?_, hran⟩
    have hsome := mt (hdecided.finish_iff.mpr ∘ hcomplete.mpr) (by simp)
    push Not at hsome
    exact hsome

/-- Two calls in a pack: one is answered and the other times out, so the pack finishes. -/
theorem collected_two : ∃ s,
    [.multiCall (fun _ => 100) [7, 8] (some 10) (some 1) (some 1) (some 2) 11,
      .onResponse 100 7 (2 ^ 32 + 1) (.other 5), .run, .onResponse 100 7 (2 ^ 32 + 1) (.other 6),
      .tick 101 2 (.entries _ _), .run, .packRun].foldlM
        (step ⟨.above _, .above _⟩ (.above _) : MultiCaller ℕ ℤ ℕ ℕ ℕ → MultiEvent ℕ ℤ ℕ ℕ ℕ → _)
        (init 100) = some s ∧ ∀ (c : ℕ) tCalls p,
      s.groups[c]? = some tCalls → s.board.packs[c]? = some p →
      ((s.board.reportsOf c).map Prod.fst).Nodup ∧
      ((s.board.Alive c ∧ s.board.invocations c = [] ∧ ∃ i k, s.IsPart c i k ∧ s.Open k) ∨
      (¬ s.board.Alive c ∧ ∃ tResult : Table ℕ (Value ℕ),
        (∀ i tData, tResult.lookup i = some tData → ∃ j k o, i = j + 1 ∧ s.IsPart c j k ∧
          s.caller.endings k = [(k, o)] ∧ tData = (partData o).or .emptyTable) ∧
        ((∀ i < tCalls.length, i + 1 ∈ tResult) ∧ (∃ f, p.fFinish = some f ∧
            s.board.invocations c = [.fFinish (c, f) tResult (c, p.tArgs)]) ∨
          (∃ i < tCalls.length, i + 1 ∉ tResult) ∧
            s.board.invocations c = (p.fTimeout.map fun f => .fTimeout (c, f) tResult).toList))) :=
  collected _ _ 100 _ (by decide +kernel)

end MultiCaller

end Rpc

end CodeTest
