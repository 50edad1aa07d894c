import CodeTest.Text.Split

/-!
# Version strings

`checkVersionFormat` of `stringutil.lua`. A field that is not a number is not in the result of
`split2Number`, so `checkVersionFormat` counts the numbers among the fields, not the fields
(`checkVersionFormat_iff`).
-/

namespace CodeTest.Text

section

variable {N : Type}

/-- `type(v)`. -/
def luaType : Option (Field N) → String
  | none => "nil"
  | some (.string _) => "string"
  | some (.number _) => "number"

/-- The delimiter of the fields of a version. -/
def dot : UInt8 := 0x2E

def checkVersionFormat (tonumber : LuaString → Option N) (sVersion : LuaString) : Bool :=
  let tVersion := split2Number tonumber sVersion [dot]
  tVersion.length == 4 && luaType tVersion[0]? == "number" && luaType tVersion[1]? == "number" &&
    luaType tVersion[2]? == "number" && luaType tVersion[3]? == "number"

/-! ## What is accepted -/

variable (tonumber : LuaString → Option N)

/-- The fields that `tonumber` accepts. -/
def accepted (s : LuaString) : List LuaString :=
  (s.splitOn dot).filter fun field => (tonumber field).isSome

theorem length_split2Number (s : LuaString) :
    (split2Number tonumber s [dot]).length = (accepted tonumber s).length := by
  rw [split2Number, split_eq, List.length_filterMap_eq_countP, List.countP_eq_length_filter,
    accepted]
  simp [fieldValue]

theorem luaType_split2Number (s : LuaString) (i : ℕ)
    (hi : i < (split2Number tonumber s [dot]).length) :
    luaType (split2Number tonumber s [dot])[i]? = "number" := by
  have hmem := List.getElem_mem hi
  rw [List.getElem?_eq_getElem hi]
  generalize (split2Number tonumber s [dot])[i] = v at hmem
  rw [split2Number, split_eq, List.mem_filterMap] at hmem
  obtain ⟨field, -, hv⟩ := hmem
  obtain ⟨x, -, rfl⟩ := Option.map_eq_some_iff.mp hv
  rfl

/-- Four numbers among the fields, wherever they are, make a version. -/
theorem checkVersionFormat_iff (s : LuaString) :
    checkVersionFormat tonumber s = true ↔ (accepted tonumber s).length = 4 := by
  have htype := luaType_split2Number tonumber s
  rw [← length_split2Number]
  simp only [checkVersionFormat, Bool.and_eq_true, beq_iff_eq]
  constructor
  · intro h
    exact h.1.1.1.1
  · intro h
    exact ⟨⟨⟨⟨h, htype 0 (by omega)⟩, htype 1 (by omega)⟩, htype 2 (by omega)⟩,
      htype 3 (by omega)⟩

/-- The format of a version: four fields, and all of them numbers. -/
def IsVersion (s : LuaString) : Prop :=
  (s.splitOn dot).length = 4 ∧ ∀ field ∈ s.splitOn dot, (tonumber field).isSome

/-- **When `checkVersionFormat` tells the format.** Whatever `tonumber` accepts, the answer is right
for a string if and only if the string does not have exactly four numbers among its fields and a
field that is none. -/
theorem checkVersionFormat_isVersion_iff (s : LuaString) :
    (checkVersionFormat tonumber s = true ↔ IsVersion tonumber s) ↔
      ¬ ((accepted tonumber s).length = 4 ∧ ∃ field ∈ s.splitOn dot, tonumber field = none) := by
  rw [checkVersionFormat_iff]
  by_cases hall : ∀ field ∈ s.splitOn dot, (tonumber field).isSome
  · have hfields : accepted tonumber s = s.splitOn dot := List.filter_eq_self.mpr hall
    refine iff_of_true ?_ ?_
    · rw [hfields, IsVersion]
      exact ⟨fun h => ⟨h, hall⟩, And.left⟩
    · rintro ⟨-, field, hmem, hnone⟩
      have := hall field hmem
      rw [hnone] at this
      exact Bool.false_ne_true this
  · have hsome : ∃ field ∈ s.splitOn dot, tonumber field = none := by
      simpa using hall
    have hnot : ¬ IsVersion tonumber s := fun h => hall h.2
    simp [hsome, hnot]

end

/-- The string `1.2.3.4.` has a fifth field, which is empty. -/
theorem checkVersionFormat_five_fields :
    ¬ (checkVersionFormat decimalNumeral [0x31, 0x2E, 0x32, 0x2E, 0x33, 0x2E, 0x34, 0x2E] = true ↔
      IsVersion decimalNumeral [0x31, 0x2E, 0x32, 0x2E, 0x33, 0x2E, 0x34, 0x2E]) := by
  have hcheck : checkVersionFormat decimalNumeral
      [0x31, 0x2E, 0x32, 0x2E, 0x33, 0x2E, 0x34, 0x2E] = true := by decide +kernel
  intro h
  have hlength := (h.mp hcheck).1
  revert hlength
  decide +kernel

end CodeTest.Text
