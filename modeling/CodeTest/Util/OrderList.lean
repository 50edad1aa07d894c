import CodeTest.Foundations.StrictWeak
import CodeTest.Text.LuaString
import Mathlib.Data.List.Lex

/-!
# The order of a printed table

`table2orderlist` of `util.lua`, up to its call of `table.sort`: the entries of a table that are
printed, and the function that the sort compares them by. It goes by the category of the value, then
by the key; two number keys are compared as numbers, all others by their text. The two orders of the
keys do not fit together: 2 is before 10 as a number, and a string key can stand between the texts
`10` and `2`. The comparison is a strict weak order on the entries exactly when this does not
happen, and the text of every number key is read back as a number (`withinContract_iff`).

What `tostring` makes of a number and `tonumber` of a text are parameters, and `type` is for values.
The texts of keys that are neither numbers nor strings nor booleans are given with them.
-/

namespace CodeTest.OrderList

open Text

inductive LuaType
  | nil
  | boolean
  | number
  | string
  | function
  | userdata
  | table
  | thread
  deriving DecidableEq

/-- The types of the keys whose text is made of their address, or by their metatable. -/
inductive ObjectType
  | function
  | userdata
  | table
  | thread
  deriving DecidableEq

/-- A key of a table. -/
inductive Key (N : Type)
  | number (x : N)
  | string (s : LuaString)
  | boolean (b : Bool)
  | object (type : ObjectType) (text : LuaString)
  deriving DecidableEq

/-- The entry that `table2orderlist` makes of a key and its value. -/
structure Entry (V : Type) where
  depth : ℤ
  cateory : ℕ
  keyType : LuaType
  valueType : LuaType
  key : LuaString
  value : V
  deriving DecidableEq

section

variable {N M V : Type}

/-- `type(k)`. -/
def Key.type : Key N → LuaType
  | .number _ => .number
  | .string _ => .string
  | .boolean _ => .boolean
  | .object .function _ => .function
  | .object .userdata _ => .userdata
  | .object .table _ => .table
  | .object .thread _ => .thread

/-- `tostring(k)`. -/
def Key.text (tostring : N → LuaString) : Key N → LuaString
  | .number x => tostring x
  | .string s => s
  | .boolean true => [0x74, 0x72, 0x75, 0x65]
  | .boolean false => [0x66, 0x61, 0x6C, 0x73, 0x65]
  | .object _ text => text

def isStart (s : LuaString) : Option LuaString → Bool
  | none => true
  | some start => stringSub s 1 start.length == start

def isEnd (s : LuaString) : Option LuaString → Bool
  | none => true
  | some suffix => suffix == [] || stringEnd s suffix.length == suffix

/-- The category of a value by its type. -/
def cateoryOf : LuaType → ℕ
  | .function => 2
  | .userdata => 3
  | .table => 3
  | _ => 1

/-- The entries that are sorted: those of the table `tb`, in the order of `pairs`, whose text starts
or ends with `suffix`. -/
def entries (tostring : N → LuaString) (type : V → LuaType) (tb : List (Key N × V))
    (depth : Option ℤ) (suffix : Option LuaString) : List (Entry V) :=
  tb.filterMap fun kv =>
    let key := kv.1.text tostring
    if isEnd key suffix || isStart key suffix then
      some { depth := depth.getD 0, cateory := cateoryOf (type kv.2), keyType := kv.1.type,
             valueType := type kv.2, key := key, value := kv.2 }
    else
      none

variable [LinearOrder M] (tonumber : LuaString → Option M)

/-- The comparison function. It has no result when it compares nil with a number. -/
def comesBefore (a b : Entry V) : Option Bool :=
  if a.cateory = b.cateory then
    if a.keyType = .number ∧ a.keyType = b.keyType then
      match tonumber a.key, tonumber b.key with
      | some x, some y => some (decide (x < y))
      | _, _ => none
    else
      some (decide (bytes a.key < bytes b.key))
  else
    some (decide (a.cateory < b.cateory))

/-- What `table.sort` asks of the comparison function, on the entries of `l`. -/
structure WithinContract (l : List (Entry V)) : Prop where
  answers : ∀ a ∈ l, ∀ b ∈ l, (comesBefore tonumber a b).isSome
  order : StrictWeakOn (fun a b => comesBefore tonumber a b = some true) l

/-- The text of every number key is read back, and no other key of the same category stands, by its
text, between two number keys that are not in the same order as numbers. -/
structure Untangled (l : List (Entry V)) : Prop where
  readable : ∀ a ∈ l, a.keyType = .number → (tonumber a.key).isSome
  apart : ∀ a ∈ l, ∀ b ∈ l, ∀ s ∈ l, a.keyType = .number → b.keyType = .number →
    s.keyType ≠ .number → a.cateory = s.cateory → b.cateory = s.cateory →
    bytes a.key < bytes s.key ∧ bytes s.key ≤ bytes b.key ∨
      bytes a.key ≤ bytes s.key ∧ bytes s.key < bytes b.key →
    ∀ x ∈ tonumber a.key, ∀ y ∈ tonumber b.key, x < y

variable {tonumber} {l : List (Entry V)} {a b c : Entry V}

/-! ## The comparison by cases -/

theorem comesBefore_of_cateory_ne (h : a.cateory ≠ b.cateory) :
    comesBefore tonumber a b = some true ↔ a.cateory < b.cateory := by
  simp [comesBefore, h]

theorem comesBefore_of_text (tonumber : LuaString → Option M) (h : a.cateory = b.cateory)
    (htext : ¬ (a.keyType = .number ∧ b.keyType = .number)) :
    comesBefore tonumber a b = some true ↔ bytes a.key < bytes b.key := by
  have hne : ¬ (a.keyType = .number ∧ a.keyType = b.keyType) := fun hn =>
    htext ⟨hn.1, hn.2 ▸ hn.1⟩
  simp [comesBefore, h, hne]

theorem comesBefore_of_number (h : a.cateory = b.cateory) (ha : a.keyType = .number)
    (hb : b.keyType = .number) {x y : M} (hx : tonumber a.key = some x)
    (hy : tonumber b.key = some y) : comesBefore tonumber a b = some true ↔ x < y := by
  simp [comesBefore, h, ha, hb, hx, hy]

/-- A comparison has a result when the texts of number keys are read back. -/
theorem isSome_comesBefore (ha : a.keyType = .number → (tonumber a.key).isSome)
    (hb : b.keyType = .number → (tonumber b.key).isSome) :
    (comesBefore tonumber a b).isSome := by
  unfold comesBefore
  split_ifs with hcat hnum
  · obtain ⟨x, hx⟩ := Option.isSome_iff_exists.mp (ha hnum.1)
    obtain ⟨y, hy⟩ := Option.isSome_iff_exists.mp (hb (hnum.2 ▸ hnum.1))
    rw [hx, hy]
    rfl
  · rfl
  · rfl

/-! ## The laws need the condition -/

theorem WithinContract.untangled (h : WithinContract tonumber l) : Untangled tonumber l where
  readable a ha hnum := by
    have hsome := h.answers a ha a ha
    cases hx : tonumber a.key with
    | none => simp [comesBefore, hnum, hx] at hsome
    | some x => rfl
  apart a ha b hb s hs hna hnb hns has hbs hbetween x hx y hy := by
    rw [← comesBefore_of_number (has.trans hbs.symm) hna hnb hx hy]
    have hastext := comesBefore_of_text tonumber has fun hn => hns hn.2
    have hsbtext := comesBefore_of_text tonumber hbs.symm fun hn => hns hn.1
    have hsatext := comesBefore_of_text tonumber has.symm fun hn => hns hn.1
    have hbstext := comesBefore_of_text tonumber hbs fun hn => hns hn.2
    rcases hbetween with ⟨hlt, hle⟩ | ⟨hle, hlt⟩
    · -- `s` is behind `a` and not behind `b`
      refine (h.order.before_or ha hb hs (hastext.mpr hlt)).resolve_right fun hbs' => ?_
      exact absurd (hbstext.mp hbs') (not_lt.mpr hle)
    · refine (h.order.before_or hs ha hb (hsbtext.mpr hlt)).resolve_left fun hsa' => ?_
      exact absurd (hsatext.mp hsa') (not_lt.mpr hle)

/-! ## The condition is enough -/

theorem Untangled.asymm (h : Untangled tonumber l) (ha : a ∈ l) (hb : b ∈ l)
    (hab : comesBefore tonumber a b = some true) : ¬ comesBefore tonumber b a = some true := by
  by_cases hcat : a.cateory = b.cateory
  · by_cases hnum : a.keyType = .number ∧ b.keyType = .number
    · obtain ⟨x, hx⟩ := Option.isSome_iff_exists.mp (h.readable a ha hnum.1)
      obtain ⟨y, hy⟩ := Option.isSome_iff_exists.mp (h.readable b hb hnum.2)
      rw [comesBefore_of_number hcat hnum.1 hnum.2 hx hy] at hab
      rw [comesBefore_of_number hcat.symm hnum.2 hnum.1 hy hx]
      exact hab.asymm
    · rw [comesBefore_of_text tonumber hcat hnum] at hab
      rw [comesBefore_of_text tonumber hcat.symm (mt And.symm hnum)]
      exact hab.asymm
  · rw [comesBefore_of_cateory_ne hcat] at hab
    rw [comesBefore_of_cateory_ne (Ne.symm hcat)]
    exact hab.asymm

theorem lt_or_lt_of_lt {α : Type} [LinearOrder α] {x z : α} (h : x < z) (y : α) :
    x < y ∨ y < z :=
  (lt_or_ge x y).imp_right fun hle => lt_of_le_of_lt hle h

theorem Untangled.exists_value (h : Untangled tonumber l) (ha : a ∈ l)
    (hna : a.keyType = .number) : ∃ x, tonumber a.key = some x :=
  Option.isSome_iff_exists.mp (h.readable a ha hna)

/-- A number key of the same category is behind the first or before the second of two that are
ordered. -/
theorem Untangled.before_or_of_number (h : Untangled tonumber l) (ha : a ∈ l) (hb : b ∈ l)
    (hc : c ∈ l) (hab : a.cateory = b.cateory) (hbc : b.cateory = c.cateory)
    (hnb : b.keyType = .number) (hac : comesBefore tonumber a c = some true) :
    comesBefore tonumber a b = some true ∨ comesBefore tonumber b c = some true := by
  have hcat := hab.trans hbc
  obtain ⟨y, hy⟩ := h.exists_value hb hnb
  by_cases hna : a.keyType = .number
  · obtain ⟨x, hx⟩ := h.exists_value ha hna
    rw [comesBefore_of_number hab hna hnb hx hy]
    by_cases hnc : c.keyType = .number
    · obtain ⟨z, hz⟩ := h.exists_value hc hnc
      rw [comesBefore_of_number hcat hna hnc hx hz] at hac
      rw [comesBefore_of_number hbc hnb hnc hy hz]
      exact lt_or_lt_of_lt hac y
    · rw [comesBefore_of_text tonumber hcat fun hn => hnc hn.2] at hac
      rw [comesBefore_of_text tonumber hbc fun hn => hnc hn.2]
      refine or_iff_not_imp_right.mpr fun hle => ?_
      exact h.apart a ha b hb c hc hna hnb hnc hcat hbc (.inl ⟨hac, not_lt.mp hle⟩) x hx y hy
  · rw [comesBefore_of_text tonumber hab fun hn => hna hn.1]
    rw [comesBefore_of_text tonumber hcat fun hn => hna hn.1] at hac
    by_cases hnc : c.keyType = .number
    · obtain ⟨z, hz⟩ := h.exists_value hc hnc
      rw [comesBefore_of_number hbc hnb hnc hy hz]
      refine or_iff_not_imp_left.mpr fun hle => ?_
      exact h.apart b hb c hc a ha hnb hnc hna hab.symm hcat.symm (.inr ⟨not_lt.mp hle, hac⟩)
        y hy z hz
    · rw [comesBefore_of_text tonumber hbc fun hn => hnc hn.2]
      exact lt_or_lt_of_lt hac _

/-- So is one that is compared by its text. -/
theorem Untangled.before_or_of_text (h : Untangled tonumber l) (ha : a ∈ l) (hb : b ∈ l)
    (hc : c ∈ l) (hab : a.cateory = b.cateory) (hbc : b.cateory = c.cateory)
    (hnb : b.keyType ≠ .number) (hac : comesBefore tonumber a c = some true) :
    comesBefore tonumber a b = some true ∨ comesBefore tonumber b c = some true := by
  have hcat := hab.trans hbc
  rw [comesBefore_of_text tonumber hab fun hn => hnb hn.2,
    comesBefore_of_text tonumber hbc fun hn => hnb hn.1]
  by_cases hnum : a.keyType = .number ∧ c.keyType = .number
  · obtain ⟨x, hx⟩ := h.exists_value ha hnum.1
    obtain ⟨z, hz⟩ := h.exists_value hc hnum.2
    rw [comesBefore_of_number hcat hnum.1 hnum.2 hx hz] at hac
    by_contra hnot
    rw [not_or, not_lt, not_lt] at hnot
    -- the texts of `c` and `a` are at or around that of `b`, against their order as numbers
    rcases hnot.2.lt_or_eq with hlt | heq
    · exact hac.asymm (h.apart c hc a ha b hb hnum.2 hnum.1 hnb hbc.symm hab
        (.inl ⟨hlt, hnot.1⟩) z hz x hx)
    · rcases hnot.1.lt_or_eq with hlt' | heq'
      · exact hac.asymm (h.apart c hc a ha b hb hnum.2 hnum.1 hnb hbc.symm hab
          (.inr ⟨hnot.2, hlt'⟩) z hz x hx)
      · have hkey : c.key = a.key := bytes_injective (heq.trans heq')
        rw [hkey, hx] at hz
        rw [Option.some.inj hz] at hac
        exact lt_irrefl z hac
  · rw [comesBefore_of_text tonumber hcat hnum] at hac
    exact lt_or_lt_of_lt hac _

theorem cateory_le (hab : comesBefore tonumber a b = some true) : a.cateory ≤ b.cateory := by
  by_cases h : a.cateory = b.cateory
  · exact h.le
  · exact ((comesBefore_of_cateory_ne h).mp hab).le

theorem Untangled.before_or (h : Untangled tonumber l) (ha : a ∈ l) (hb : b ∈ l) (hc : c ∈ l)
    (hac : comesBefore tonumber a c = some true) :
    comesBefore tonumber a b = some true ∨ comesBefore tonumber b c = some true := by
  have hle := cateory_le hac
  rcases lt_trichotomy a.cateory b.cateory with hab | hab | hab
  · exact .inl ((comesBefore_of_cateory_ne hab.ne).mpr hab)
  · rcases lt_trichotomy b.cateory c.cateory with hbc | hbc | hbc
    · exact .inr ((comesBefore_of_cateory_ne hbc.ne).mpr hbc)
    · by_cases hnb : b.keyType = .number
      · exact h.before_or_of_number ha hb hc hab hbc hnb hac
      · exact h.before_or_of_text ha hb hc hab hbc hnb hac
    · exact absurd hle (by omega)
  · have hbc : b.cateory < c.cateory := by omega
    exact .inr ((comesBefore_of_cateory_ne hbc.ne).mpr hbc)

theorem Untangled.withinContract (h : Untangled tonumber l) : WithinContract tonumber l where
  answers a ha b hb := isSome_comesBefore (h.readable a ha) (h.readable b hb)
  order := strictWeakOn_of_before_or (fun _ ha _ hb => h.asymm ha hb)
    fun _ ha _ hb _ hc => h.before_or ha hb hc

end

/-- **When the printed order is an order.** For every table, whatever `tostring` and `tonumber` make
of its number keys: on the entries that `table2orderlist` makes of it, the comparison function
always answers and is a strict weak order if and only if the texts of the number keys are read back
and no other key of the same category stands between two of them against their order. All sorted
arrangements of the entries are then the same but for equivalent ones. -/
theorem withinContract_iff {N M V : Type} [LinearOrder M] (tostring : N → LuaString)
    (tonumber : LuaString → Option M) (type : V → LuaType) (tb : List (Key N × V))
    (depth : Option ℤ) (suffix : Option LuaString) :
    (WithinContract tonumber (entries tostring type tb depth suffix) ↔
        Untangled tonumber (entries tostring type tb depth suffix)) ∧
      (Untangled tonumber (entries tostring type tb depth suffix) → ∀ l₁ l₂ : List (Entry V),
        l₁.Perm (entries tostring type tb depth suffix) →
        l₂.Perm (entries tostring type tb depth suffix) →
        (l₁.Pairwise fun a b => ¬ comesBefore tonumber b a = some true) →
        (l₂.Pairwise fun a b => ¬ comesBefore tonumber b a = some true) →
        List.Forall₂ (fun a b => ¬ comesBefore tonumber a b = some true ∧
          ¬ comesBefore tonumber b a = some true) l₁ l₂) :=
  ⟨⟨WithinContract.untangled, Untangled.withinContract⟩, fun h _ _ hl₁ hl₂ h₁ h₂ =>
    h.withinContract.order.forall₂_of_sorted hl₁ hl₂ h₁ h₂⟩

/-- Of the keys 2, 10 and `"11"`, 2 is before 10 as a number, and the texts are in the order `10`,
`11`, `2`: each of the three is before the next one in a circle. -/
theorem entries_circle :
    ¬ WithinContract decimalNumeral (entries decimalText (fun _ : Unit => LuaType.number)
      [(.number 2, ()), (.number 10, ()), (.string [0x31, 0x31], ())] none none) := by
  intro h
  have hirrefl := h.order.irrefl
  have htrans := h.order.trans
  revert hirrefl htrans
  decide +kernel

end CodeTest.OrderList
