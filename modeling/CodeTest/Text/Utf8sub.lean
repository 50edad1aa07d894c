import CodeTest.Foundations.Utf8
import CodeTest.Text.LuaString

/-!
# Slices of characters

`chsize`, `utf8sub` and `shortHand` of `stringutil.lua`. The size of a character is read off its
first byte, by comparisons that are strict where the table above them has the least first byte of a
row: the first bytes `E0`, `E1` and `F0` count for a size one too small. The scan then stops inside
the character, and takes its last byte for a character of one byte.

So `utf8sub` counts the pieces of `pieces` for characters (`utf8sub_text`), and it slices characters
where these are the same (`utf8sub_eq_iff`).
-/

namespace CodeTest.Text

/-- `chsize(char)`, with the nil that `string.byte` gives behind the string. -/
def chsize : Option ℤ → ℕ
  | none => 0
  | some char =>
    if char > 240 then 4
    else if char > 225 then 3
    else if char > 192 then 2
    else 1

/-- The first loop of `utf8sub`, with the number of its rounds. -/
def skipLoop (str : LuaString) : ℕ → ℕ → ℕ
  | 0, startIndex => startIndex
  | k + 1, startIndex => skipLoop str k (startIndex + chsize (stringByte str startIndex))

/-- The second loop of `utf8sub`. -/
def takeLoop (str : LuaString) : ℕ → ℕ → ℕ
  | 0, currentIndex => currentIndex
  | numChars + 1, currentIndex =>
    if currentIndex ≤ str.length then
      takeLoop str numChars (currentIndex + chsize (stringByte str currentIndex))
    else
      currentIndex

def utf8sub (str : LuaString) (startChar numChars : ℕ) : LuaString :=
  let startIndex := skipLoop str (startChar - 1) 1
  let currentIndex := takeLoop str numChars startIndex
  stringSub str startIndex (currentIndex - 1)

/-- `utf8.len(s)`, where nil stands for its failure on a string that is not valid. -/
def utf8Len (s : LuaString) : Option ℕ := s.toByteArray.utf8Decode?.map Array.size

def shortHand (str : LuaString) (numChars : ℕ) : Except LuaError LuaString :=
  match utf8Len str with
  | none => .error .compareNil
  | some len =>
    if len ≤ numChars then .ok str else .ok (utf8sub str 1 numChars ++ [0x2E, 0x2E, 0x2E])

/-- The string of the characters `cs`. -/
def text (cs : List Char) : LuaString := cs.flatMap String.utf8EncodeChar

theorem utf8Len_text (cs : List Char) : utf8Len (text cs) = some cs.length := by
  have h : (text cs).toByteArray.utf8Decode? = some cs.toArray := List.utf8Decode?_utf8Encode
  rw [utf8Len, h]
  rfl

/-! ## Strings in pieces -/

/-- The first byte of the piece gives its size. -/
def Sized (piece : LuaString) : Prop :=
  ∃ b s, piece = b :: s ∧ chsize (some (b.toNat : ℤ)) = piece.length

theorem skipLoop_flatten {ps : List LuaString} (hps : ∀ p ∈ ps, Sized p) (done : LuaString)
    (k : ℕ) :
    skipLoop (done ++ ps.flatten) k (done.length + 1) =
      done.length + 1 + (ps.take k).flatten.length := by
  induction ps generalizing done k with
  | nil =>
    induction k with
    | zero => rfl
    | succ k ih =>
      rw [skipLoop, stringByte_append]
      simpa [chsize] using ih
  | cons p ps ih =>
    cases k with
    | zero => rfl
    | succ k =>
      obtain ⟨b, s, rfl, hsize⟩ := hps p (by simp)
      have hnext := ih (fun q hq => hps q (.tail _ hq)) (done ++ (b :: s)) k
      rw [List.append_assoc, List.length_append] at hnext
      rw [skipLoop, stringByte_append, List.flatten_cons, List.cons_append, List.head?_cons,
        Option.map_some, hsize, Nat.add_right_comm, ← List.cons_append, hnext, List.take_succ_cons,
        List.flatten_cons, List.length_append]
      omega

theorem takeLoop_flatten {ps : List LuaString} (hps : ∀ p ∈ ps, Sized p) (done : LuaString)
    (n : ℕ) :
    takeLoop (done ++ ps.flatten) n (done.length + 1) =
      done.length + 1 + (ps.take n).flatten.length := by
  induction ps generalizing done n with
  | nil =>
    cases n with
    | zero => rfl
    | succ n => rw [takeLoop, if_neg (by simp)]; rfl
  | cons p ps ih =>
    cases n with
    | zero => rfl
    | succ n =>
      obtain ⟨b, s, rfl, hsize⟩ := hps p (by simp)
      have hnext := ih (fun q hq => hps q (.tail _ hq)) (done ++ (b :: s)) n
      rw [List.append_assoc, List.length_append] at hnext
      rw [takeLoop, if_pos (by simp), stringByte_append, List.flatten_cons, List.cons_append,
        List.head?_cons, Option.map_some, hsize, Nat.add_right_comm, ← List.cons_append, hnext,
        List.take_succ_cons, List.flatten_cons, List.length_append]
      omega

theorem flatten_take_append_drop (ps : List LuaString) (n : ℕ) :
    ps.flatten = (ps.take n).flatten ++ (ps.drop n).flatten := by
  rw [← List.flatten_append, List.take_append_drop]

/-- On a string in sized pieces, `utf8sub` is a slice of the pieces. -/
theorem utf8sub_flatten {ps : List LuaString} (hps : ∀ p ∈ ps, Sized p) (startChar numChars : ℕ) :
    utf8sub ps.flatten startChar numChars =
      ((ps.drop (startChar - 1)).take numChars).flatten := by
  have hskip := skipLoop_flatten hps [] (startChar - 1)
  have hdrop : ∀ p ∈ ps.drop (startChar - 1), Sized p := fun p hp =>
    hps p (List.mem_of_mem_drop hp)
  have htake := takeLoop_flatten hdrop (ps.take (startChar - 1)).flatten numChars
  rw [← flatten_take_append_drop] at htake
  rw [List.nil_append, List.length_nil, Nat.zero_add, Nat.add_comm] at hskip
  rw [utf8sub, hskip, htake, Nat.add_right_comm, Nat.add_sub_cancel,
    flatten_take_append_drop ps (startChar - 1), stringSub_append,
    flatten_take_append_drop (ps.drop (startChar - 1)) numChars, List.take_left]

/-! ## The pieces of a character -/

/-- The characters whose first byte is `E0`, `E1` or `F0`. -/
def Misread (c : Char) : Prop :=
  0x800 ≤ c.toNat ∧ c.toNat ≤ 0x1FFF ∨ 0x10000 ≤ c.toNat ∧ c.toNat ≤ 0x3FFFF

instance : DecidablePred Misread := fun c => inferInstanceAs (Decidable
  (0x800 ≤ c.toNat ∧ c.toNat ≤ 0x1FFF ∨ 0x10000 ≤ c.toNat ∧ c.toNat ≤ 0x3FFFF))

/-- What the scan takes for characters in the bytes of a character. -/
def pieces (c : Char) : List LuaString :=
  let bytes := String.utf8EncodeChar c
  if Misread c then [bytes.dropLast, bytes.drop (bytes.length - 1)] else [bytes]

theorem flatten_pieces (c : Char) : (pieces c).flatten = String.utf8EncodeChar c := by
  unfold pieces
  split_ifs
  · rw [List.flatten_cons, List.flatten_singleton, List.dropLast_eq_take, List.take_append_drop]
  · exact List.flatten_singleton

/-- A piece of which the size that is read off the first byte is known. -/
theorem sized_cons {n : ℕ} (hn : n < 256) (s : LuaString) (size : ℕ)
    (hsize : chsize (some (n : ℤ)) = size) (hs : s.length + 1 = size) :
    Sized (UInt8.ofNat n :: s) := by
  refine ⟨_, s, rfl, ?_⟩
  rw [UInt8.toNat_ofNat', Nat.mod_eq_of_lt (by omega), hsize, List.length_cons, hs]

/-- The sizes that first bytes are read as. -/
theorem chsize_eq (n : ℕ) :
    chsize (some (n : ℤ)) =
      if 240 < n then 4 else if 225 < n then 3 else if 192 < n then 2 else 1 := by
  simp only [chsize]
  split_ifs <;> omega

theorem sized_tailByte (c i : ℕ) : Sized [Utf8.tailByte c i] := by
  have := Utf8.group_lt c i
  refine sized_cons (by omega) [] 1 ?_ rfl
  rw [chsize_eq, if_neg (by omega), if_neg (by omega), if_neg (by omega)]

/-- A character that is not misread is one piece. -/
theorem sized_encode {n : ℕ} (hmax : n ≤ 0x10FFFF)
    (hm : ¬ (0x800 ≤ n ∧ n ≤ 0x1FFF ∨ 0x10000 ≤ n ∧ n ≤ 0x3FFFF)) : Sized (Utf8.encode n) := by
  unfold Utf8.encode
  split_ifs with h₁ h₂ h₃ h₄ h₅
  · refine sized_cons (by omega) _ 1 ?_ rfl
    rw [chsize_eq, if_neg (by omega), if_neg (by omega), if_neg (by omega)]
  · refine sized_cons (by omega) _ 2 ?_ rfl
    rw [chsize_eq, if_neg (by omega), if_neg (by omega), if_pos (by omega)]
  · refine sized_cons (by omega) _ 3 ?_ rfl
    rw [chsize_eq, if_neg (by omega), if_pos (by omega)]
  · refine sized_cons (by omega) _ 4 ?_ rfl
    rw [chsize_eq, if_pos (by omega)]
  · exact absurd hmax (by omega)
  · exact absurd hmax (by omega)

/-- Of a misread character, all bytes but the last are a piece, and the last one is. -/
theorem sized_encode_misread {n : ℕ}
    (hm : 0x800 ≤ n ∧ n ≤ 0x1FFF ∨ 0x10000 ≤ n ∧ n ≤ 0x3FFFF) :
    Sized (Utf8.encode n).dropLast ∧ Sized ((Utf8.encode n).drop ((Utf8.encode n).length - 1)) := by
  unfold Utf8.encode
  rcases hm with hm | hm
  · rw [if_neg (by omega), if_neg (by omega), if_pos (by omega)]
    refine ⟨sized_cons (by omega) _ 2 ?_ rfl, sized_tailByte n 0⟩
    rw [chsize_eq, if_neg (by omega), if_neg (by omega), if_pos (by omega)]
  · rw [if_neg (by omega), if_neg (by omega), if_neg (by omega), if_pos (by omega)]
    refine ⟨sized_cons (by omega) _ 3 ?_ rfl, sized_tailByte n 0⟩
    rw [chsize_eq, if_neg (by omega), if_pos (by omega)]

theorem sized_pieces (c : Char) : ∀ p ∈ pieces c, Sized p := by
  unfold pieces
  rw [← Utf8.encode_toNat]
  split_ifs with hm
  · simpa using sized_encode_misread hm
  · simpa using sized_encode (Utf8.toNat_le c) hm

/-- `utf8sub` counts pieces for characters. -/
theorem utf8sub_text (cs : List Char) (startChar numChars : ℕ) :
    utf8sub (text cs) startChar numChars =
      (((cs.flatMap pieces).drop (startChar - 1)).take numChars).flatten := by
  have htext : text cs = (cs.flatMap pieces).flatten := by
    simp [text, List.flatMap_def, List.flatten_flatten, Function.comp_def, flatten_pieces]
  rw [htext, utf8sub_flatten]
  intro p hp
  obtain ⟨c, -, hp⟩ := List.mem_flatMap.mp hp
  exact sized_pieces c p hp

/-! ## When the slices are right -/

theorem pieces_of_not_misread {c : Char} (h : ¬ Misread c) :
    pieces c = [String.utf8EncodeChar c] := if_neg h

theorem pieces_of_misread {c : Char} (h : Misread c) :
    ∃ a b, pieces c = [a, b] ∧ 0 < b.length ∧ a ++ b = String.utf8EncodeChar c := by
  refine ⟨_, _, if_pos h, ?_, ?_⟩
  · rw [List.length_drop, String.length_utf8EncodeChar]
    have := c.utf8Size_pos
    omega
  · rw [List.dropLast_eq_take, List.take_append_drop]

/-- The pieces up to the first misread character are the characters. -/
theorem take_flatMap_pieces {cs : List Char} {n : ℕ} (h : ∀ c ∈ cs.take n, ¬ Misread c) :
    (cs.flatMap pieces).take n = (cs.take n).map String.utf8EncodeChar := by
  induction cs generalizing n with
  | nil => simp
  | cons c cs ih =>
    cases n with
    | zero => rfl
    | succ n =>
      rw [List.take_succ_cons, List.forall_mem_cons] at h
      rw [List.flatMap_cons, pieces_of_not_misread h.1, List.singleton_append, List.take_succ_cons,
        List.take_succ_cons, List.map_cons, ih h.2]

/-- A slice that ends before the first misread character is right. -/
theorem utf8sub_of_take {cs : List Char} {startChar numChars : ℕ}
    (h : ∀ c ∈ cs.take (startChar - 1 + numChars), ¬ Misread c) :
    utf8sub (text cs) startChar numChars = text ((cs.drop (startChar - 1)).take numChars) := by
  have hslice : ∀ {α : Type} (l : List α), (l.drop (startChar - 1)).take numChars =
      (l.take (startChar - 1 + numChars)).drop (startChar - 1) := fun l => by
    rw [List.drop_take, Nat.add_sub_cancel_left]
  rw [utf8sub_text, hslice, hslice, take_flatMap_pieces h, ← List.map_drop, text, List.flatMap_def]

theorem length_text_take_lt {cs : List Char} {n : ℕ} (h : n < cs.length) :
    (text (cs.take n)).length < (text (cs.take (n + 1))).length := by
  rw [← List.take_append_getElem h, text, text, List.flatMap_append, List.length_append,
    List.flatMap_singleton, String.length_utf8EncodeChar]
  exact Nat.lt_add_of_pos_right (Char.utf8Size_pos _)

theorem length_text_take_le (cs : List Char) (n : ℕ) :
    (text (cs.take n)).length ≤ (text (cs.take (n + 1))).length := by
  by_cases h : n < cs.length
  · exact (length_text_take_lt h).le
  · rw [List.take_of_length_le (by omega), List.take_of_length_le (by omega)]

theorem text_cons (c : Char) (cs : List Char) :
    text (c :: cs) = String.utf8EncodeChar c ++ text cs := rfl

/-- As many pieces as characters are no more bytes. -/
theorem length_take_pieces_le (cs : List Char) (n : ℕ) :
    ((cs.flatMap pieces).take n).flatten.length ≤ (text (cs.take n)).length := by
  induction cs generalizing n with
  | nil => simp
  | cons c cs ih =>
    cases n with
    | zero => simp
    | succ n =>
      rw [List.flatMap_cons, List.take_succ_cons, text_cons]
      by_cases hm : Misread c
      · obtain ⟨a, b, hpieces, -, hab⟩ := pieces_of_misread hm
        rw [hpieces, ← hab]
        cases n with
        | zero => simp
        | succ n =>
          have hle := (ih n).trans (length_text_take_le cs n)
          simp only [List.cons_append, List.nil_append, List.take_succ_cons, List.flatten_cons,
            List.length_append]
          omega
      · have := ih n
        simp only [pieces_of_not_misread hm, List.cons_append, List.nil_append,
          List.take_succ_cons, List.flatten_cons, List.length_append]
        omega

/-- With a misread character among them they are fewer bytes. -/
theorem length_take_pieces_lt {cs : List Char} {n : ℕ} (hn : n ≤ cs.length)
    (h : ∃ c ∈ cs.take n, Misread c) :
    ((cs.flatMap pieces).take n).flatten.length < (text (cs.take n)).length := by
  induction cs generalizing n with
  | nil => simp at h
  | cons c cs ih =>
    cases n with
    | zero => simp at h
    | succ n =>
      rw [List.length_cons] at hn
      rw [List.flatMap_cons, List.take_succ_cons, text_cons]
      by_cases hm : Misread c
      · obtain ⟨a, b, hpieces, hb, hab⟩ := pieces_of_misread hm
        rw [hpieces, ← hab]
        cases n with
        | zero =>
          simp
          omega
        | succ n =>
          have hlt := (length_take_pieces_le cs n).trans_lt (length_text_take_lt (by omega))
          simp only [List.cons_append, List.nil_append, List.take_succ_cons, List.flatten_cons,
            List.length_append]
          omega
      · have hrest : ∃ c ∈ cs.take n, Misread c := by
          rw [List.take_succ_cons] at h
          simpa [hm] using h
        have := ih (by omega) hrest
        simp only [pieces_of_not_misread hm, List.cons_append, List.nil_append,
          List.take_succ_cons, List.flatten_cons, List.length_append]
        omega

/-- **When `shortHand` shortens to characters.** It does on a string that has more characters if and
only if none of those it keeps is misread. -/
theorem shortHand_eq_iff (cs : List Char) (numChars : ℕ) :
    shortHand (text cs) numChars =
        .ok (if cs.length ≤ numChars then text cs
          else text (cs.take numChars) ++ [0x2E, 0x2E, 0x2E]) ↔
      cs.length ≤ numChars ∨ ∀ c ∈ cs.take numChars, ¬ Misread c := by
  simp only [shortHand, utf8Len_text]
  by_cases hlen : cs.length ≤ numChars
  · simp [hlen]
  · simp only [hlen, if_false, false_or, Except.ok.injEq, List.append_cancel_right_eq]
    refine ⟨fun heq c hc hm => ?_, fun h => ?_⟩
    · have hlt := length_take_pieces_lt (by omega) ⟨c, hc, hm⟩
      rw [utf8sub_text, Nat.sub_self, List.drop_zero] at heq
      rw [heq] at hlt
      exact absurd hlt (lt_irrefl _)
    · rw [utf8sub_of_take (by simpa using h)]
      rfl

/-- **When `utf8sub` slices characters.** On the string of the characters `cs`, every slice and
every shortened form is the one of the characters if and only if no first byte of them is `E0`,
`E1` or `F0`. For one slice it is enough that there is none up to its end. -/
theorem utf8sub_eq_iff (cs : List Char) :
    (((∀ startChar ≥ 1, ∀ numChars, utf8sub (text cs) startChar numChars =
            text ((cs.drop (startChar - 1)).take numChars)) ∧
          ∀ numChars, shortHand (text cs) numChars =
            .ok (if cs.length ≤ numChars then text cs
              else text (cs.take numChars) ++ [0x2E, 0x2E, 0x2E])) ↔
        ∀ c ∈ cs, ¬ Misread c) ∧
      ∀ startChar ≥ 1, ∀ numChars, (∀ c ∈ cs.take (startChar - 1 + numChars), ¬ Misread c) →
        utf8sub (text cs) startChar numChars =
          text ((cs.drop (startChar - 1)).take numChars) := by
  refine ⟨⟨fun ⟨hslice, _⟩ c hc hm => ?_, fun h => ⟨fun startChar _ numChars => ?_,
    fun numChars => ?_⟩⟩, fun startChar _ numChars h => utf8sub_of_take h⟩
  · have hlt := length_take_pieces_lt (Nat.le_refl cs.length) ⟨c, by simpa using hc, hm⟩
    have heq := hslice 1 (Nat.le_refl 1) cs.length
    rw [utf8sub_text, Nat.sub_self, List.drop_zero, List.drop_zero] at heq
    rw [heq] at hlt
    exact absurd hlt (lt_irrefl _)
  · exact utf8sub_of_take fun c hc => h c (List.mem_of_mem_take hc)
  · exact (shortHand_eq_iff cs numChars).mpr (.inr fun c hc => h c (List.mem_of_mem_take hc))

/-- Of U+1F600, with the bytes `F0 9F 98 80`, three bytes are sliced. -/
theorem utf8sub_emoji :
    ¬ (utf8sub (text [Char.ofNat 0x1F600]) 1 1 = text [Char.ofNat 0x1F600]) := by
  decide +kernel

end CodeTest.Text
