import CodeTest.Rpc.MultiCall

/-!
# The calls of the packs

`Grouped` says which calls are for parts of packs: those of a pack go to its applications, one call
to each, in order. A pack that was started lately has its calls behind all others.

What a callback reports is `report`. A call that has ended reports for its part what `partData`
makes of its outcome: the data of the response, and `{}` for a timeout and an error.
-/

namespace CodeTest.Rpc

open MultiTask

variable {A N Cb Args V : Type}

/-! ## Reports -/

/-- What a part reports when its call has ended. -/
def partData : Outcome (Value V) → Value V
  | .response tData => tData
  | .timeout => .emptyTable
  | .error => .emptyTable

/-- The part that a callback reports for, and the data. -/
def report : Invocation (Callback Cb) (ℕ × (Part ⊕ Args)) (Value V) → Option (Part × Value V)
  | .fCb .onPartReponse tData (_, .inl part) => some (part, tData)
  | .fTimeout .onPartReponseTimeout (_, .inl part) => some (part, .emptyTable)
  | .fError .onPartResponseError (_, .inl part) => some (part, .emptyTable)
  | _ => none

theorem tArgs_of_report {i : Invocation (Callback Cb) (ℕ × (Part ⊕ Args)) (Value V)} {part : Part}
    {tData : Value V} (h : report i = some (part, tData)) : i.tArgs.2 = .inl part := by
  unfold report at h
  split at h <;> cases h <;> rfl

/-- The call of a part has a callback for each way it may end, which reports for the part. -/
theorem report_callback (part : Part) (k : ℕ) (o : Outcome (Value V)) :
    ∃ i, ((partFunctor part : CbFunctor (Callback Cb) (Part ⊕ Args)).mark k).callback o = some i ∧
      report i = some (part, partData o) := by
  cases o <;> exact ⟨_, rfl, rfl⟩

theorem MultiCaller.execute_eq [DecidableEq N] [IntCast N] [Add N] [One N] [LE N] [DecidableLE N]
    (newTimer : Allocator Unit) (board : Board N Cb Args V)
    (i : Invocation (Callback Cb) (ℕ × (Part ⊕ Args)) (Value V)) :
    execute newTimer board i = (report i).elim board fun x =>
      (board.step newTimer (.onPartTaskFinish x.1.nPackId x.1.nTaskId x.2)).2 := by
  cases i with
  | fCb f tData tArgs => obtain ⟨k, part | args⟩ := tArgs <;> cases f <;> rfl
  | fTimeout f tArgs => obtain ⟨k, part | args⟩ := tArgs <;> cases f <;> rfl
  | fError f tArgs => obtain ⟨k, part | args⟩ := tArgs <;> cases f <;> rfl

/-! ## Groups -/

/-- The calls for parts are one for each application of each group, in the order of the group. -/
structure Grouped (calls : List (A × CbFunctor (Callback Cb) (Part ⊕ Args)))
    (groups : List (List A)) : Prop where
  exists_group : ∀ (k : ℕ) app f part, calls[k]? = some (app, f) → f.tArgs = .inl part →
    f = partFunctor part ∧ ∃ tCalls i, groups[part.pack]? = some tCalls ∧ part.nTaskId = i + 1 ∧
      tCalls[i]? = some app
  exists_call : ∀ (c : ℕ) tCalls (i : ℕ) app, groups[c]? = some tCalls → tCalls[i]? = some app →
    ∃ (k : ℕ) (nPackId : Double), calls[k]? = some (app, partFunctor ⟨c, nPackId, i + 1⟩)
  unique : ∀ (k k' : ℕ) app app' f f' part part', calls[k]? = some (app, f) →
    calls[k']? = some (app', f') → f.tArgs = .inl part → f'.tArgs = .inl part' →
    part.pack = part'.pack → part.nTaskId = part'.nTaskId → k = k'

namespace Grouped

variable {calls new : List (A × CbFunctor (Callback Cb) (Part ⊕ Args))} {groups : List (List A)}

theorem nil : Grouped ([] : List (A × CbFunctor (Callback Cb) (Part ⊕ Args))) [] where
  exists_group k app f part h := absurd h (by simp)
  exists_call c tCalls i app h := absurd h (by simp)
  unique k k' app app' f f' part part' h := absurd h (by simp)

theorem pack_lt (h : Grouped calls groups) {k : ℕ} {app : A}
    {f : CbFunctor (Callback Cb) (Part ⊕ Args)} {part : Part} (hk : calls[k]? = some (app, f))
    (hf : f.tArgs = .inl part) : part.pack < groups.length := by
  obtain ⟨-, tCalls, -, hgroup, -⟩ := h.exists_group k app f part hk hf
  exact (List.getElem?_eq_some_iff.mp hgroup).1

/-- An entry of the longer list is an entry of one of the two, at its place. -/
theorem getElem?_append_cases {α : Type*} {l l' : List α} {k : ℕ} {x : α}
    (h : (l ++ l')[k]? = some x) : l[k]? = some x ∨ ∃ j, k = l.length + j ∧ l'[j]? = some x := by
  rcases lt_or_ge k l.length with hk | hk
  · exact .inl (List.getElem?_append_left hk ▸ h)
  · rw [List.getElem?_append_right hk] at h
    exact .inr ⟨k - l.length, (Nat.add_sub_of_le hk).symm, h⟩

/-- A call that is not for a part. -/
theorem append_other (h : Grouped calls groups) (app : A) (f : CbFunctor Cb Args) :
    Grouped (calls ++ [(app, otherFunctor f)]) groups := by
  -- the new call has no part
  have hold : ∀ (k : ℕ) app' f' part, (calls ++ [(app, otherFunctor f)])[k]? = some (app', f') →
      f'.tArgs = .inl part → calls[k]? = some (app', f') := by
    intro k app' f' part hk hf
    rcases getElem?_append_cases hk with hk | ⟨j, -, hj⟩
    · exact hk
    · obtain ⟨-, rfl⟩ := Prod.mk.inj (List.mem_singleton.mp (List.mem_of_getElem? hj))
      exact absurd hf (by simp [otherFunctor])
  refine ⟨fun k app' f' part hk hf => h.exists_group k app' f' part (hold k app' f' part hk hf) hf,
    fun c tCalls i app' hgroup hi => ?_, ?_⟩
  · obtain ⟨k, nPackId, hk⟩ := h.exists_call c tCalls i app' hgroup hi
    exact ⟨k, nPackId, List.getElem?_append_left (List.getElem?_eq_some_iff.mp hk).1 ▸ hk⟩
  · intro k k' app₁ app₂ f₁ f₂ part part' hk hk' hf hf'
    exact h.unique k k' app₁ app₂ f₁ f₂ part part' (hold k app₁ f₁ part hk hf)
      (hold k' app₂ f₂ part' hk' hf') hf hf'

/-- The calls that `multiCall` makes, with the ids of the tasks. -/
theorem getElem?_parts (tCalls : List A) (c : ℕ) (nPackId : Double) (j : ℕ) :
    ((tCalls.zip ((List.range tCalls.length).map fun i => i + 1)).map fun x =>
      (x.1, (partFunctor ⟨c, nPackId, x.2⟩ : CbFunctor (Callback Cb) (Part ⊕ Args))))[j]? =
    tCalls[j]?.map fun app => (app, partFunctor ⟨c, nPackId, j + 1⟩) := by
  rw [List.getElem?_map, List.zip, List.getElem?_zipWith]
  cases happ : tCalls[j]? with
  | none => rfl
  | some app =>
    have hlt := (List.getElem?_eq_some_iff.mp happ).1
    rw [List.getElem?_map, List.getElem?_range hlt]
    rfl

/-- The calls of a new pack. -/
theorem append_parts (h : Grouped calls groups) (tCalls : List A) (nPackId : Double)
    (hnew : ∀ j : ℕ, new[j]? =
      tCalls[j]?.map fun app => (app, partFunctor ⟨groups.length, nPackId, j + 1⟩)) :
    Grouped (calls ++ new) (groups ++ [tCalls]) := by
  have hinv : ∀ (j : ℕ) app f, new[j]? = some (app, f) →
      tCalls[j]? = some app ∧ f = partFunctor ⟨groups.length, nPackId, j + 1⟩ := by
    intro j app f hj
    rw [hnew] at hj
    obtain ⟨app', happ, heq⟩ := Option.map_eq_some_iff.mp hj
    obtain ⟨rfl, rfl⟩ := Prod.mk.inj heq
    exact ⟨happ, rfl⟩
  refine ⟨fun k app f part hk hf => ?_, fun c tCalls' i app hgroup hi => ?_, ?_⟩
  · rcases getElem?_append_cases hk with hk | ⟨j, -, hj⟩
    · obtain ⟨heq, tCalls', i, hgroup, hi⟩ := h.exists_group k app f part hk hf
      refine ⟨heq, tCalls', i, ?_, hi⟩
      rw [List.getElem?_append_left (List.getElem?_eq_some_iff.mp hgroup).1, hgroup]
    · obtain ⟨happ, rfl⟩ := hinv j app f hj
      obtain rfl := Sum.inl.inj hf
      exact ⟨rfl, tCalls, j, List.getElem?_concat_length, rfl, happ⟩
  · rcases getElem?_append_cases hgroup with hgroup | ⟨j, rfl, hj⟩
    · obtain ⟨k, nPackId', hk⟩ := h.exists_call c tCalls' i app hgroup hi
      exact ⟨k, nPackId', List.getElem?_append_left (List.getElem?_eq_some_iff.mp hk).1 ▸ hk⟩
    · obtain ⟨rfl, rfl⟩ : j = 0 ∧ tCalls' = tCalls := by
        cases j <;> simp_all
      refine ⟨calls.length + i, nPackId, ?_⟩
      rw [List.getElem?_append_right (Nat.le_add_right _ _), Nat.add_sub_cancel_left, hnew, hi]
      rfl
  · intro k k' app app' f f' part part' hk hk' hf hf' hpack htask
    rcases getElem?_append_cases hk with hk | ⟨j, rfl, hj⟩ <;>
      rcases getElem?_append_cases hk' with hk' | ⟨j', rfl, hj'⟩
    · exact h.unique k k' app app' f f' part part' hk hk' hf hf' hpack htask
    · obtain ⟨-, rfl⟩ := hinv j' app' f' hj'
      obtain rfl := Sum.inl.inj hf'
      exact absurd (h.pack_lt hk hf) (by rw [hpack]; exact lt_irrefl _)
    · obtain ⟨-, rfl⟩ := hinv j app f hj
      obtain rfl := Sum.inl.inj hf
      exact absurd (h.pack_lt hk' hf') (by rw [← hpack]; exact lt_irrefl _)
    · obtain ⟨-, rfl⟩ := hinv j app f hj
      obtain ⟨-, rfl⟩ := hinv j' app' f' hj'
      obtain rfl := Sum.inl.inj hf
      obtain rfl := Sum.inl.inj hf'
      rw [Nat.succ_injective htask]

end Grouped

end CodeTest.Rpc
