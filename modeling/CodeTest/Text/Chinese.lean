import CodeTest.Text.Utf8sub

/-!
# Characters that are removed

`isContainChinese` and `getNACorrectStr` of `stringutil.lua`, with the iterator of `utf8.codes`. A
round of the iterator goes on from the position before: it skips the byte there and the bytes
`10xxxxxx` behind it, so on valid UTF-8 the positions are those of the first bytes of the characters
(`forCodes_text`).

`getNACorrectStr` copies runs of characters that stay. A run is open from its start offset on, and
what is copied already together with the open run is the string of the characters that stay
(`collected`).
-/

namespace CodeTest.Text

open Utf8

/-- The error "invalid UTF-8 code" of `utf8.codes`. -/
inductive CodesError
  | invalidCode
  deriving DecidableEq

/-- The index at which the iterator goes on from the position `n`, where 0 is none yet. -/
def codesIndex (s : LuaString) (n : ℕ) : ℕ :=
  if n = 0 then 0 else n + ((s.drop n).takeWhile fun b => IsTail b).length

/-- The iterator of `utf8.codes`: the next position and the code point there. -/
def codesNext (s : LuaString) (n : ℕ) : Except CodesError (Option (ℕ × ℕ)) :=
  let rest := s.drop (codesIndex s n)
  if rest = [] then
    .ok none
  else
    match rest.toByteArray.utf8DecodeChar? 0 with
    | none => .error .invalidCode
    | some c =>
      if ∃ b ∈ rest[c.utf8Size]?, IsTail b then .error .invalidCode
      else .ok (some (codesIndex s n + 1, c.toNat))

/-- The iterator goes on behind the position, and not behind the string. -/
theorem codesNext_lt {s : LuaString} {n i codePoint : ℕ}
    (h : codesNext s n = .ok (some (i, codePoint))) : n < i ∧ i ≤ s.length := by
  have hle : n ≤ codesIndex s n := by
    unfold codesIndex
    split_ifs <;> omega
  unfold codesNext at h
  simp only at h
  split_ifs at h with hnil
  · cases h
  · have hlt : codesIndex s n < s.length := by
      by_contra hge
      exact hnil (List.drop_eq_nil_of_le (Nat.le_of_not_lt hge))
    split at h
    · cases h
    · split_ifs at h
      cases h
      exact ⟨Nat.lt_succ_of_le hle, hlt⟩

/-- The loop `for i, codePoint in utf8.codes(str) do … end`, from the position `n` on. -/
def forCodes {σ : Type} (str : LuaString) (body : ℕ → ℕ → σ → ForInStep σ) (n : ℕ) (state : σ) :
    Except CodesError σ :=
  match _h : codesNext str n with
  | .error e => .error e
  | .ok none => .ok state
  | .ok (some (i, codePoint)) =>
    match body i codePoint state with
    | .done state => .ok state
    | .yield state => forCodes str body i state
termination_by str.length - n
decreasing_by
  have := codesNext_lt _h
  omega

/-- The code points that are removed. -/
def IsChinese (codePoint : ℕ) : Prop := codePoint ≥ 0x4E00 ∧ codePoint ≤ 0x9FFF

instance : DecidablePred IsChinese := fun codePoint =>
  inferInstanceAs (Decidable (codePoint ≥ 0x4E00 ∧ codePoint ≤ 0x9FFF))

/-- `isContainChinese(str)`, where the return without a value counts as false. -/
def isContainChinese (str : LuaString) : Except CodesError Bool :=
  forCodes str (fun _ codePoint found =>
    if IsChinese codePoint then .done true else .yield found) 0 false

/-- The variables of the loop of `getNACorrectStr`. -/
structure Correct where
  sCorrect : LuaString
  nStart : Option ℕ

/-- The body of the loop of `getNACorrectStr`. -/
def correctStep (str : LuaString) (i codePoint : ℕ) (v : Correct) : ForInStep Correct :=
  if ¬ IsChinese codePoint then
    match v.nStart with
    | none => .yield { v with nStart := some i }
    | some _ => .yield v
  else
    match v.nStart with
    | some nStart => .yield ⟨v.sCorrect ++ stringSub str nStart (i - 1), none⟩
    | none => .yield v

/-- `getNACorrectStr(str)`, where `isNA` is what `isNA()` returns. The first branch has no second
result. -/
def getNACorrectStr (isNA : Bool) (str : LuaString) :
    Except CodesError (LuaString × Option Bool) :=
  if ¬ isNA then
    .ok (str, none)
  else do
    if ← isContainChinese str then
      let v ← forCodes str (correctStep str) 0 ⟨[], none⟩
      match v.nStart with
      | some nStart => .ok (v.sCorrect ++ stringSub str nStart str.length, some true)
      | none => .ok (v.sCorrect, some true)
    else
      .ok (str, some false)

/-! ## The loop on characters -/

/-- The rounds of a loop over the characters `cs`, the first of which is at the position `i`. -/
def overCharacters {σ : Type} (body : ℕ → ℕ → σ → ForInStep σ) : List Char → ℕ → σ → σ
  | [], _, state => state
  | c :: cs, i, state =>
    match body i c.toNat state with
    | .done state => state
    | .yield state => overCharacters body cs (i + (String.utf8EncodeChar c).length) state

/-- The first byte of a string of characters is the first of a character. -/
theorem exists_utf8EncodeChar_eq_cons (c : Char) :
    ∃ b ts, String.utf8EncodeChar c = b :: ts ∧ ¬ IsTail b ∧ ∀ t ∈ ts, IsTail t := by
  rw [← encode_toNat]
  exact exists_encode_eq_cons (Nat.le_trans (toNat_le c) (by decide))

theorem not_isTail_head?_text (cs : List Char) : ¬ ∃ b ∈ (text cs).head?, IsTail b := by
  rintro ⟨b, hb, htail⟩
  cases cs with
  | nil => cases hb
  | cons c cs =>
    obtain ⟨b', ts, hc, hlead, -⟩ := exists_utf8EncodeChar_eq_cons c
    rw [text_cons, hc, List.cons_append, List.head?_cons, Option.mem_some_iff] at hb
    exact hlead (hb ▸ htail)

/-- From the position of a character, the iterator goes on behind it. -/
theorem codesIndex_character (done : LuaString) (c : Char) (cs : List Char) :
    codesIndex (done ++ text (c :: cs)) (done.length + 1) =
      done.length + (String.utf8EncodeChar c).length := by
  obtain ⟨b, ts, hc, -, htail⟩ := exists_utf8EncodeChar_eq_cons c
  have hstop : ((text cs).takeWhile fun b => IsTail b) = [] := by
    have := not_isTail_head?_text cs
    cases htext : text cs with
    | nil => rfl
    | cons b s =>
      rw [htext] at this
      exact List.takeWhile_cons_of_neg (by simpa using this)
  rw [codesIndex, if_neg (Nat.succ_ne_zero _), text_cons, hc, ← List.drop_drop, List.drop_left,
    List.cons_append, List.drop_one, List.tail_cons,
    List.takeWhile_append_of_pos (by simpa using htail), hstop, List.append_nil, List.length_cons]
  omega

/-- A round of the iterator. -/
theorem codesNext_cons {done : LuaString} {c : Char} {cs : List Char} {n : ℕ}
    (hn : codesIndex (done ++ text (c :: cs)) n = done.length) :
    codesNext (done ++ text (c :: cs)) n = .ok (some (done.length + 1, c.toNat)) := by
  have hne : text (c :: cs) ≠ [] := by
    obtain ⟨b, ts, hc, -⟩ := exists_utf8EncodeChar_eq_cons c
    rw [text_cons, hc]
    exact List.cons_ne_nil _ _
  have hdecode : (text (c :: cs)).toByteArray.utf8DecodeChar? 0 = some c := by
    rw [text_cons, List.toByteArray_append]
    exact ByteArray.utf8DecodeChar?_utf8EncodeChar_append
  have hnext : (text (c :: cs))[c.utf8Size]? = (text cs).head? := by
    rw [text_cons, ← String.length_utf8EncodeChar, List.getElem?_append_right (Nat.le_refl _),
      Nat.sub_self, List.head?_eq_getElem?]
  unfold codesNext
  simp only [hn, List.drop_left, if_neg hne, hdecode, hnext]
  rw [if_neg (not_isTail_head?_text cs)]

/-- On valid UTF-8 the loop meets the characters, each at the position of its first byte. -/
theorem forCodes_append {σ : Type} (body : ℕ → ℕ → σ → ForInStep σ) {done : LuaString}
    {cs : List Char} {n : ℕ} (hn : codesIndex (done ++ text cs) n = done.length) (state : σ) :
    forCodes (done ++ text cs) body n state =
      .ok (overCharacters body cs (done.length + 1) state) := by
  induction cs generalizing done n state with
  | nil =>
    have hend : codesNext (done ++ text []) n = .ok none := by
      unfold codesNext
      simp only [hn, List.drop_left]
      rfl
    rw [forCodes]
    split
    · next h => rw [hend] at h; cases h
    · rfl
    · next h => rw [hend] at h; cases h
  | cons c cs ih =>
    have hnext := codesNext_cons hn
    rw [forCodes]
    split
    · next h => rw [hnext] at h; cases h
    · next h => rw [hnext] at h; cases h
    · next h =>
      rw [hnext] at h
      cases h
      rw [overCharacters]
      cases body (done.length + 1) c.toNat state with
      | done state => rfl
      | yield state =>
        have hindex := codesIndex_character done c cs
        have hrest := @ih (done ++ String.utf8EncodeChar c) (done.length + 1)
        rw [List.append_assoc, ← text_cons, List.length_append, Nat.add_right_comm] at hrest
        exact hrest hindex state

theorem forCodes_text {σ : Type} (body : ℕ → ℕ → σ → ForInStep σ) (cs : List Char) (state : σ) :
    forCodes (text cs) body 0 state = .ok (overCharacters body cs 1 state) :=
  @forCodes_append σ body [] cs 0 rfl state

/-! ## The functions on characters -/

theorem isContainChinese_text (cs : List Char) :
    isContainChinese (text cs) = .ok (cs.any fun c => IsChinese c.toNat) := by
  rw [isContainChinese, forCodes_text]
  congr 1
  generalize 1 = i
  induction cs generalizing i with
  | nil => rfl
  | cons c cs ih =>
    rw [overCharacters, List.any_cons]
    by_cases h : IsChinese c.toNat
    · simp [h]
    · simp only [if_neg h, ih, decide_eq_false h, Bool.false_or]

/-- What is copied already and the open run, before the index `i`. -/
def collected (str : LuaString) (v : Correct) (i : ℕ) : LuaString :=
  match v.nStart with
  | some nStart => v.sCorrect ++ stringSub str nStart i
  | none => v.sCorrect

@[simp] theorem collected_some (str sCorrect : LuaString) (nStart i : ℕ) :
    collected str ⟨sCorrect, some nStart⟩ i = sCorrect ++ stringSub str nStart i := rfl

@[simp] theorem collected_none (str sCorrect : LuaString) (i : ℕ) :
    collected str ⟨sCorrect, none⟩ i = sCorrect := rfl

/-- The characters with a code point outside the block. -/
def kept (cs : List Char) : List Char := cs.filter fun c => c.toNat < 0x4E00 ∨ c.toNat > 0x9FFF

/-- A slice that begins before the border behind `done`, or at it. -/
theorem stringSub_append_of_le {done : LuaString} {k : ℕ} (hpos : 0 < k)
    (hk : k ≤ done.length + 1) (s : LuaString) (n : ℕ) :
    stringSub (done ++ s) k (done.length + n) = done.drop (k - 1) ++ s.take n := by
  have hlength : done.length + n + 1 - k = (done.drop (k - 1)).length + n := by
    rw [List.length_drop]
    omega
  rw [stringSub, List.drop_append_of_le_length (by omega), hlength, List.take_length_add_append]

/-- The invariant of the loop in front of the character behind `done`: an open run begins at most
there. -/
def Opened (done : LuaString) (v : Correct) : Prop :=
  ∀ k ∈ v.nStart, 0 < k ∧ k ≤ done.length + 1

/-- A round of the loop, over the bytes `part` of a character. -/
theorem collected_step {done : LuaString} (part rest : LuaString) (codePoint : ℕ) {v : Correct}
    (hv : Opened done v) :
    ∃ v', correctStep (done ++ (part ++ rest)) (done.length + 1) codePoint v = .yield v' ∧
      Opened (done ++ part) v' ∧
      collected (done ++ (part ++ rest)) v' (done.length + part.length) =
        collected (done ++ (part ++ rest)) v done.length ++
          if IsChinese codePoint then [] else part := by
  obtain ⟨sCorrect, nStart⟩ := v
  by_cases hremoved : IsChinese codePoint
  · cases nStart with
    | none =>
      refine ⟨⟨sCorrect, none⟩, ?_, nofun, ?_⟩
      · rw [correctStep, if_neg (not_not_intro hremoved)]
      · simp [hremoved]
    | some k =>
      refine ⟨⟨sCorrect ++ stringSub (done ++ (part ++ rest)) k done.length, none⟩, ?_, nofun, ?_⟩
      · rw [correctStep, if_neg (not_not_intro hremoved)]
        rfl
      · simp [hremoved]
  · cases nStart with
    | none =>
      refine ⟨⟨sCorrect, some (done.length + 1)⟩, ?_, ?_, ?_⟩
      · rw [correctStep, if_pos hremoved]
      · intro k hk
        cases hk
        rw [List.length_append]
        omega
      · rw [if_neg hremoved, collected_some, collected_none, stringSub_append, List.take_left]
    | some k =>
      obtain ⟨hpos, hk⟩ := hv k rfl
      refine ⟨⟨sCorrect, some k⟩, ?_, ?_, ?_⟩
      · rw [correctStep, if_pos hremoved]
      · intro k' hk'
        cases hk'
        rw [List.length_append]
        omega
      · have hbefore := stringSub_append_of_le hpos hk (part ++ rest) 0
        rw [Nat.add_zero, List.take_zero, List.append_nil] at hbefore
        rw [if_neg hremoved, collected_some, collected_some, stringSub_append_of_le hpos hk,
          hbefore, List.take_left, List.append_assoc]

theorem text_kept_cons (c : Char) (cs : List Char) :
    text (kept (c :: cs)) =
      (if IsChinese c.toNat then [] else String.utf8EncodeChar c) ++ text (kept cs) := by
  by_cases h : IsChinese c.toNat
  · have hout : ¬ (c.toNat < 0x4E00 ∨ c.toNat > 0x9FFF) := by
      rw [IsChinese] at h
      omega
    rw [if_pos h, kept, List.filter_cons_of_neg (by simpa using hout), List.nil_append, kept]
  · have hout : c.toNat < 0x4E00 ∨ c.toNat > 0x9FFF := by
      rw [IsChinese] at h
      omega
    rw [if_neg h, kept, List.filter_cons_of_pos (by simpa using hout), text_cons, kept]

/-- A run of the loop. -/
theorem collected_run {str done : LuaString} {cs : List Char} (hstr : str = done ++ text cs)
    {v : Correct} (hv : Opened done v) :
    collected str (overCharacters (correctStep str) cs (done.length + 1) v) str.length =
      collected str v done.length ++ text (kept cs) := by
  induction cs generalizing done v with
  | nil =>
    rw [overCharacters, hstr]
    simp [text, kept]
  | cons c cs ih =>
    obtain ⟨v', hstep, hv', hcollected⟩ :=
      collected_step (String.utf8EncodeChar c) (text cs) c.toNat hv
    rw [text_cons] at hstr
    rw [← hstr] at hstep hcollected
    have hrest := @ih (done ++ String.utf8EncodeChar c) (by rw [hstr, List.append_assoc]) v' hv'
    rw [List.length_append, hcollected, Nat.add_right_comm] at hrest
    rw [overCharacters, hstep]
    simp only [hrest]
    rw [text_kept_cons, List.append_assoc]

theorem kept_eq_self_iff {cs : List Char} :
    kept cs = cs ↔ (cs.any fun c => IsChinese c.toNat) = false := by
  rw [kept, List.filter_eq_self, List.any_eq_false]
  refine forall₂_congr fun c _ => ?_
  rw [decide_eq_true_eq, decide_eq_true_eq, IsChinese]
  omega

theorem kept_kept (cs : List Char) : kept (kept cs) = kept cs := by
  rw [kept, kept, List.filter_filter]
  simp only [Bool.and_self]

/-- Where nothing is removed, the string itself is returned. -/
theorem getNACorrectStr_of_kept_eq {cs : List Char} (h : kept cs = cs) :
    getNACorrectStr true (text cs) = .ok (text cs, some false) := by
  rw [getNACorrectStr, isContainChinese_text, kept_eq_self_iff.mp h]
  rfl

/-- Otherwise the last open run is copied up to the end of the string. -/
theorem getNACorrectStr_of_kept_ne {cs : List Char} (h : kept cs ≠ cs) :
    getNACorrectStr true (text cs) = .ok (text (kept cs), some true) := by
  have hany := Bool.eq_true_of_not_eq_false (mt kept_eq_self_iff.mpr h)
  have hrun := @collected_run (text cs) [] cs rfl ⟨[], none⟩ nofun
  rw [List.length_nil, Nat.zero_add, collected_none, List.nil_append] at hrun
  rw [getNACorrectStr, isContainChinese_text, hany, ← hrun, forCodes_text]
  obtain ⟨sCorrect, nStart⟩ := overCharacters (correctStep (text cs)) cs 1 ⟨[], none⟩
  cases nStart with
  | none => rfl
  | some nStart => rfl

/-- **The filter.** Where `isNA()` holds, on valid UTF-8 the first result is the string of the
characters that stay, the second one tells whether any other was there, and nothing is removed from
the result. -/
theorem getNACorrectStr_spec (cs : List Char) :
    (∃ bChange, getNACorrectStr true (text cs) = .ok (text (kept cs), some bChange) ∧
      (bChange = true ↔ kept cs ≠ cs)) ∧
    getNACorrectStr true (text (kept cs)) = .ok (text (kept cs), some false) := by
  refine ⟨?_, getNACorrectStr_of_kept_eq (kept_kept cs)⟩
  by_cases h : kept cs = cs
  · exact ⟨false, h.symm ▸ getNACorrectStr_of_kept_eq h, by simp [h]⟩
  · exact ⟨true, getNACorrectStr_of_kept_ne h, by simp [h]⟩

end CodeTest.Text
