import CodeTest.Foundations.Memory
import CodeTest.Util.OrderList

/-!
# Printing a value

`printTable` of `util.lua`: a table that is an array is printed as the list of its elements, and any
other table with its entries in the order of `table2orderlist`. A table that is met again is printed
by its address only. Printing raises an error exactly where a sort does: `table.sort` is a
parameter, which has no result when it compares a number key whose text is not read back as a
number, such as `inf`. So a value is printed when the sorts of the tables in it and below it have
results (`isSome_printTable`).

The tables have no metatables. The texts of functions, userdata and threads are given with them, and
those of tables by their address.
-/

namespace CodeTest.PrintTable

open Text OrderList

/-- A number: an integer, or a float, which is only known by its text. -/
inductive Num (F : Type)
  | integer (n : ℤ)
  | float (x : F)
  deriving DecidableEq

/-- A value other than `nil`. -/
inductive Value (F : Type)
  | number (x : Num F)
  | string (s : LuaString)
  | boolean (b : Bool)
  | function (text : LuaString)
  | userdata (text : LuaString)
  | thread (text : LuaString)
  | table (p : Addr)
  deriving DecidableEq

/-- A table without metatable. -/
abbrev PlainTable (F : Type) := Table (Key (Num F)) (Value F)

/-- What the language leaves open: the texts of numbers and of tables, the number that a text is
read as, the order of a traversal, and how a table is sorted. -/
structure Runtime (F M : Type) where
  tostring : Num F → LuaString
  address : Addr → LuaString
  tonumber : LuaString → Option M
  order : PairsOrder (Key (Num F)) (Value F)
  sort : SortFunction (Entry (Value F))

/-- The texts of a machine with one float, the infinity of `math.huge`: integers in decimal, which
are also what is read back, and traversals in the order of the entries. -/
def Runtime.simple : Runtime Unit ℤ where
  tostring
    | .integer (.ofNat n) => decimalText n
    | .integer (.negSucc n) => 0x2D :: decimalText (n + 1)
    | .float _ => [0x69, 0x6E, 0x66]
  address p := [0x74, 0x61, 0x62, 0x6C, 0x65, 0x3A, 0x20] ++ decimalText p
  tonumber
    | 0x2D :: s => (decimalNumeral s).map fun n => -n
    | s => (decimalNumeral s).map fun n => n
  order := .entries _ _
  sort := .insertion _

section

variable {F M : Type}

/-- `type(v)`. -/
def Value.type : Value F → LuaType
  | .number _ => .number
  | .string _ => .string
  | .boolean _ => .boolean
  | .function _ => .function
  | .userdata _ => .userdata
  | .thread _ => .thread
  | .table _ => .table

/-- `tostring(v)`. -/
def Value.text (rt : Runtime F M) : Value F → LuaString
  | .number x => rt.tostring x
  | .string s => s
  | .boolean true => [0x74, 0x72, 0x75, 0x65]
  | .boolean false => [0x66, 0x61, 0x6C, 0x73, 0x65]
  | .function text => text
  | .userdata text => text
  | .thread text => text
  | .table p => rt.address p

/-- `string.format('"%s"', s)`. -/
def quoted (s : LuaString) : LuaString := [0x22] ++ s ++ [0x22]

/-- The keys that `isinteger` is true of. -/
def isinteger : Key (Num F) → Option ℤ
  | .number (.integer n) => some n
  | _ => none

/-- The loop of `isArray`. -/
def isArrayLoop : List (Key (Num F)) → ℕ → ℤ → Bool
  | [], len, max => len = max
  | k :: keys, len, max =>
    match isinteger k with
    | some n => if 0 < n then isArrayLoop keys (len + 1) (if max < n then n else max) else false
    | none => false

/-- `isArray(tb)`. -/
def isArray (rt : Runtime F M) (tb : PlainTable F) : Bool :=
  isArrayLoop ((rt.order.pairs tb).map Sigma.fst) 0 0

variable [DecidableEq F]

/-- The values that `ipairs(tb)` goes through from the index `i` on, at most `left` of them. -/
def ipairs (tb : PlainTable F) : ℕ → ℤ → List (Value F)
  | 0, _ => []
  | left + 1, i =>
    match tb.lookup (.number (.integer i)) with
    | some v => v :: ipairs tb left (i + 1)
    | none => []

/-- The elements of an array. Their number is `#tb`. -/
def elements (tb : PlainTable F) : List (Value F) := ipairs tb tb.entries.length 1

omit [DecidableEq F] in
/-- `table2orderlist(tb)`. -/
def table2orderlist [LinearOrder M] (rt : Runtime F M) (tb : PlainTable F) :
    Option (List (Entry (Value F))) :=
  rt.sort.sort (comesBefore rt.tonumber)
    (entries rt.tostring Value.type ((rt.order.pairs tb).map fun e => (e.1, e.2)) none none)

/-- A key as it is printed. -/
def keyText (e : Entry (Value F)) : LuaString :=
  if e.keyType = .string then
    if (stringByte e.key 1).any fun b => b = 95 ∨ 65 ≤ b ∧ b ≤ 90 ∨ 97 ≤ b ∧ b ≤ 122 then e.key
    else [0x5B, 0x22] ++ e.key ++ [0x22, 0x5D]
  else if e.keyType = .number then [0x5B] ++ e.key ++ [0x5D]
  else e.key

/-- The text of a value in a table: a string in quotes, a table by the given function. The second
result is `tbDict`, the tables that were met. -/
def valueText (rt : Runtime F M)
    (table2strNoFormat : Value F → List Addr → Option (LuaString × List Addr)) :
    Value F → List Addr → Option (LuaString × List Addr)
  | .string s, tbDict => some (quoted s, tbDict)
  | .table p, tbDict => table2strNoFormat (.table p) tbDict
  | v, tbDict => some (v.text rt, tbDict)

/-- The loop over the entries, or the elements, of a table: each with the text that goes before its
value, and a comma between them. -/
def itemsText (rt : Runtime F M)
    (table2strNoFormat : Value F → List Addr → Option (LuaString × List Addr)) :
    List (LuaString × Value F) → LuaString → List Addr → Option (LuaString × List Addr)
  | [], str, tbDict => some (str, tbDict)
  | (start, v) :: items, str, tbDict => do
    let (value, tbDict) ← valueText rt table2strNoFormat v tbDict
    let comma := if items = [] then [] else [0x2C]
    itemsText rt table2strNoFormat items (str ++ start ++ value ++ comma) tbDict

variable [LinearOrder M]

/-- What is printed of a table: the elements of an array, or the entries in their order. -/
def items (rt : Runtime F M) (tb : PlainTable F) : Option (List (LuaString × Value F)) :=
  if isArray rt tb && 0 < (elements tb).length then
    some ((elements tb).map fun v => ([], v))
  else
    (table2orderlist rt tb).map fun list => list.map fun e => (keyText e ++ [0x3D], e.value)

/-- `table2strNoFormat(tb, tbDict)`, with a recursion of at most the given depth. The result is none
when it raises an error. -/
def table2strNoFormat (rt : Runtime F M) (mem : Memory (PlainTable F)) :
    ℕ → Value F → List Addr → Option (LuaString × List Addr)
  | 0, _, _ => none
  | depth + 1, .table p, tbDict =>
    if p ∈ tbDict then some (rt.address p, tbDict)
    else do
      let items ← items rt ((mem.lookup p).getD ∅)
      let (str, tbDict) ←
        itemsText rt (table2strNoFormat rt mem depth) items [0x7B] (p :: tbDict)
      return (str ++ [0x7D], tbDict)
  | _ + 1, .string s, tbDict => some (quoted s, tbDict)
  | _ + 1, v, tbDict => some (v.text rt, tbDict)

/-- `printTable(t)`: the line that is printed. -/
def printTable (rt : Runtime F M) (mem : Memory (PlainTable F)) (depth : ℕ) :
    Option (Value F) → Option LuaString
  | none => some [0x6E, 0x69, 0x6C, 0x0A]
  | some v => (table2strNoFormat rt mem depth v []).map fun r => r.1 ++ [0x0A]

/-! ## When a value is printed -/

/-- The tables that were not met yet. -/
def unmet (mem : Memory (PlainTable F)) (tbDict : List Addr) : Finset Addr :=
  mem.keys.toFinset \ tbDict.toFinset

omit [DecidableEq F] in
theorem unmet_subset (mem : Memory (PlainTable F)) {d d' : List Addr} (h : d ⊆ d') :
    unmet mem d' ⊆ unmet mem d :=
  Finset.sdiff_subset_sdiff subset_rfl fun p hp => by simpa using h (List.mem_toFinset.mp hp)

omit [DecidableEq F] in
theorem card_unmet_lt {mem : Memory (PlainTable F)} {d : List Addr} {p : Addr} (hp : p ∈ mem)
    (hd : p ∉ d) : (unmet mem (p :: d)).card < (unmet mem d).card := by
  refine Finset.card_lt_card ⟨unmet_subset mem (List.subset_cons_self p d), fun hsub => ?_⟩
  have hmem : p ∈ unmet mem d := by
    simp [unmet, hd, ← AList.mem_keys, hp]
  simpa [unmet] using hsub hmem

variable {rt : Runtime F M} {mem : Memory (PlainTable F)} {S : Set Addr}

/-- The tables of `S` are there, their sorts have results, and their values are tables of `S` or no
tables. -/
def Sorted (rt : Runtime F M) (mem : Memory (PlainTable F)) (S : Set Addr) : Prop :=
  ∀ p ∈ S, ∃ tb, mem.lookup p = some tb ∧ ∃ l, items rt tb = some l ∧
    ∀ e ∈ l, ∀ q, e.2 = .table q → q ∈ S

variable (rt mem) in
omit [DecidableEq F] [LinearOrder M] in
/-- The loop over the items of a table, when the values are printed. -/
theorem itemsText_spec {print : Value F → List Addr → Option (LuaString × List Addr)} {n : ℕ}
    (hprint : ∀ p ∈ S, ∀ d, (unmet mem d).card < n → ∃ r, print (.table p) d = some r ∧ d ⊆ r.2)
    (l : List (LuaString × Value F)) (hl : ∀ e ∈ l, ∀ q, e.2 = .table q → q ∈ S) (str : LuaString)
    {d : List Addr} (hd : (unmet mem d).card < n) :
    ∃ r, itemsText rt print l str d = some r ∧ d ⊆ r.2 := by
  induction l generalizing str d with
  | nil => exact ⟨(str, d), rfl, List.Subset.refl d⟩
  | cons e l ih =>
    obtain ⟨start, v⟩ := e
    have hvalue : ∃ r, valueText rt print v d = some r ∧ d ⊆ r.2 := by
      cases v with
      | table p => exact hprint p (hl _ List.mem_cons_self p rfl) d hd
      | _ => exact ⟨_, rfl, List.Subset.refl d⟩
    obtain ⟨⟨value, d'⟩, hvalue, hsub⟩ := hvalue
    have hd' := (Finset.card_le_card (unmet_subset mem hsub)).trans_lt hd
    obtain ⟨r, hr, hsub'⟩ := ih (fun e' he' => hl e' (List.mem_cons_of_mem _ he'))
      (str ++ start ++ value ++ if l = [] then [] else [0x2C]) hd'
    refine ⟨r, ?_, List.Subset.trans hsub hsub'⟩
    rw [itemsText, hvalue]
    exact hr

/-- A value is printed when the sorts have results and the recursion may be deeper than there are
tables. -/
theorem table2strNoFormat_spec (hS : Sorted rt mem S) {depth : ℕ} {v : Value F} {d : List Addr}
    (hv : ∀ p, v = .table p → p ∈ S) (hdepth : (unmet mem d).card < depth) :
    ∃ r, table2strNoFormat rt mem depth v d = some r ∧ d ⊆ r.2 := by
  induction depth generalizing v d with
  | zero => omega
  | succ depth ih =>
    cases v with
    | table p =>
      by_cases hp : p ∈ d
      · exact ⟨_, if_pos hp, List.Subset.refl d⟩
      · obtain ⟨tb, htb, l, hl, hclosed⟩ := hS p (hv p rfl)
        have hmem : p ∈ mem := AList.lookup_isSome.mp (by rw [htb]; rfl)
        have hlt := card_unmet_lt hmem hp
        obtain ⟨r, hr, hsub⟩ := itemsText_spec rt mem
          (fun q hq d' hd' => ih (fun q' hq' => Value.table.inj hq' ▸ hq) hd') l hclosed [0x7B]
          (show (unmet mem (p :: d)).card < depth by omega)
        refine ⟨(r.1 ++ [0x7D], r.2), ?_, List.Subset.trans (List.subset_cons_self p d) hsub⟩
        rw [table2strNoFormat, if_neg hp, htb, Option.getD_some, hl]
        simp only [bind, Option.bind, hr]
        rfl
    | _ => exact ⟨_, rfl, List.Subset.refl d⟩

/-- **When a value is printed**: `printTable` returns when the sorts of the tables that it meets
have results. -/
theorem isSome_printTable (hS : Sorted rt mem S) {depth : ℕ} {v : Value F}
    (hv : ∀ p, v = .table p → p ∈ S) (hdepth : mem.keys.length < depth) :
    (printTable rt mem depth (some v)).isSome := by
  have hcard : (unmet mem []).card ≤ mem.keys.length := by
    simpa [unmet] using mem.keys.toFinset_card_le
  obtain ⟨r, hr, -⟩ := table2strNoFormat_spec hS hv (d := []) (hcard.trans_lt hdepth)
  rw [printTable, hr]
  rfl

omit [DecidableEq F] in
/-- A sort has a result when the number keys can be told apart from the others. -/
theorem isSome_table2orderlist {tb : PlainTable F} (h : Untangled rt.tonumber
    (entries rt.tostring Value.type ((rt.order.pairs tb).map fun e => (e.1, e.2)) none none)) :
    (table2orderlist rt tb).isSome :=
  rt.sort.returns h.withinContract.answers h.withinContract.order

end

end CodeTest.PrintTable
