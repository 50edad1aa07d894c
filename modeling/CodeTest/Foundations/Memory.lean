import CodeTest.Foundations.Table
import Mathlib.Order.Lattice

/-!
# Memory

Memory with cells of one kind: finitely many addresses are allocated, and an allocator picks an
address that is not. An address that was freed may be picked again. `Kept` says that all cells of a
memory are in another one as they are.
-/

namespace CodeTest

abbrev Addr := ℕ

/-- The allocated cells. -/
abbrev Memory (V : Type*) := Table Addr V

/-- Which address is given to a new cell. -/
structure Allocator (V : Type*) where
  fresh : Memory V → Addr
  fresh_free : ∀ mem : Memory V, mem.lookup (fresh mem) = none

/-- The allocator that goes on after the highest address in use. -/
def Allocator.above (V : Type*) : Allocator V where
  fresh mem := mem.keys.foldr max 0 + 1
  fresh_free mem := by
    have hle : ∀ (l : List ℕ) (p : ℕ), p ∈ l → p ≤ l.foldr max 0 := by
      intro l
      induction l with
      | nil => simp
      | cons q l ih =>
        intro p hp
        rcases List.mem_cons.mp hp with rfl | hp
        · exact le_max_left _ _
        · exact (ih p hp).trans (le_max_right _ _)
    rw [AList.lookup_eq_none]
    intro hmem
    exact absurd (hle _ _ (AList.mem_keys.mp hmem)) (Nat.not_succ_le_self _)

namespace Memory

variable {V : Type*}

/-- Writing to a cell. -/
def modify (mem : Memory V) (p : Addr) (f : V → V) : Memory V :=
  match mem.lookup p with
  | none => mem
  | some v => mem.insert p (f v)

theorem lookup_modify (mem : Memory V) (p q : Addr) (f : V → V) :
    (mem.modify p f).lookup q = if q = p then (mem.lookup p).map f else mem.lookup q := by
  unfold modify
  cases h : mem.lookup p with
  | none =>
    split_ifs with hq
    · rw [hq, h]
      rfl
    · rfl
  | some v => rw [Table.lookup_insert_eq, Option.map_some]

/-- Writing to a cell that must be allocated. -/
def write (mem : Memory V) (p : Addr) (f : V → V) : Option (Memory V) :=
  (mem.lookup p).map fun v => mem.insert p (f v)

theorem write_eq {mem : Memory V} {p : Addr} {v : V} (h : mem.lookup p = some v) (f : V → V) :
    mem.write p f = some (mem.insert p (f v)) := by
  rw [write, h, Option.map_some]

/-- Writing through a pointer, if it is not null. -/
def writeThrough (mem : Memory V) (ptr : Option Addr) (f : V → V) : Option (Memory V) :=
  match ptr with
  | none => some mem
  | some p => mem.write p f

theorem exists_writeThrough {mem : Memory V} {ptr : Option Addr}
    (h : ∀ p, ptr = some p → (mem.lookup p).isSome) (f : V → V) :
    ∃ mem', mem.writeThrough ptr f = some mem' ∧
      ∀ q, mem'.lookup q = if ptr = some q then (mem.lookup q).map f else mem.lookup q := by
  cases ptr with
  | none => exact ⟨mem, rfl, fun q => by simp⟩
  | some p =>
    obtain ⟨v, hv⟩ := Option.isSome_iff_exists.mp (h p rfl)
    refine ⟨_, write_eq hv f, ?_⟩
    intro q
    rw [Table.lookup_insert_eq]
    by_cases hq : q = p
    · rw [if_pos hq, hq, if_pos rfl, hv, Option.map_some]
    · rw [if_neg hq, if_neg fun h => hq (Option.some_inj.mp h).symm]

/-- Every cell of `mem` is in `mem'` as it is. -/
def Kept (mem mem' : Memory V) : Prop := ∀ p v, mem.lookup p = some v → mem'.lookup p = some v

theorem Kept.refl (mem : Memory V) : mem.Kept mem := fun _ _ h => h

theorem Kept.trans {mem mem' mem'' : Memory V} (h : mem.Kept mem') (h' : mem'.Kept mem'') :
    mem.Kept mem'' :=
  fun p v hv => h' p v (h p v hv)

theorem Kept.lookup {mem mem' : Memory V} (h : mem.Kept mem') {p : Addr}
    (hp : (mem.lookup p).isSome) : mem'.lookup p = mem.lookup p := by
  obtain ⟨v, hv⟩ := Option.isSome_iff_exists.mp hp
  rw [hv, h p v hv]

/-- A new cell. -/
theorem kept_insert {mem : Memory V} {p : Addr} (hp : mem.lookup p = none) (v : V) :
    mem.Kept (mem.insert p v) := by
  intro q w hw
  rw [Table.lookup_insert_eq, if_neg, hw]
  rintro rfl
  rw [hp] at hw
  cases hw

end Memory

end CodeTest
