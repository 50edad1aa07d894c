import CodeTest.Foundations.BinaryHeap
import CodeTest.UvLua.MinHeap

/-!
# What the sifts of the heap of nodes do

`Around t s hole l` says that the heap `s` holds the nodes `l` in order of position, that they know
their positions and have the timeouts `t`, with the exception of the position `hole`: there only `l`
says which node belongs, and neither the array nor the node need agree. To move the hole is to
exchange two elements of `l`, so that the conditions on binary heaps with one key out of place apply
to `l`. At the end of a sift there is no hole.
-/

namespace CodeTest.UvLua.MinHeap

open BinaryHeap

variable {t : Addr → ℤ} {s s' s'' : MinHeap} {hole : ℕ} {l l' : List Addr} {e : Addr}

/-- The timeouts by position. -/
def keys (t : Addr → ℤ) (l : List Addr) (i : ℕ) : ℤ := l[i]?.elim 0 t

theorem keys_of_getElem? {i : ℕ} (h : l[i]? = some e) : keys t l i = t e := by rw [keys, h]; rfl

theorem keys_exchange {i j : ℕ} (hi : i < l.length) (hj : j < l.length) :
    keys t (exchange l i j) = keys t l ∘ Equiv.swap i j := by
  funext m
  rw [keys, getElem?_exchange hi hj]
  rfl

/-- The heap holds the nodes `l`, except that `hole` is not filled. -/
structure Around (t : Addr → ℤ) (s : MinHeap) (hole : ℕ) (l : List Addr) : Prop where
  length_le : l.length ≤ s.p.length
  nodup : l.Nodup
  timeout : ∀ a ∈ l, s.timeout a = some (t a)
  seat : ∀ i a, l[i]? = some a → i ≠ hole → s.entry i = some a ∧ s.idx a = some (i : ℤ)

/-- `s'` differs from `s` at most in the array, and in the positions of the nodes `l`. -/
structure Alike (l : List Addr) (s s' : MinHeap) : Prop where
  n_eq : s'.n = s.n
  timeout_eq : ∀ a, s'.timeout a = s.timeout a
  lookup_eq : ∀ a, a ∉ l → s'.nodes.lookup a = s.nodes.lookup a

theorem Alike.refl (l : List Addr) (s : MinHeap) : Alike l s s :=
  ⟨rfl, fun _ => rfl, fun _ _ => rfl⟩

theorem Alike.trans (h : Alike l s s') (h' : Alike l s' s'') : Alike l s s'' where
  n_eq := h'.n_eq.trans h.n_eq
  timeout_eq a := (h'.timeout_eq a).trans (h.timeout_eq a)
  lookup_eq a ha := (h'.lookup_eq a ha).trans (h.lookup_eq a ha)

theorem Alike.perm (h : Alike l s s') (hl : l'.Perm l) : Alike l' s s' :=
  { h with lookup_eq := fun a ha => h.lookup_eq a fun hmem => ha (hl.mem_iff.mpr hmem) }

/-! ## Filling a position -/

theorem exists_lookup_of_timeout {x : ℤ} (h : s.timeout e = some x) :
    ∃ node, s.nodes.lookup e = some node ∧ node.ev_timeout = x :=
  Option.map_eq_some_iff.mp h

/-- `e->minheap_idx = i`. -/
theorem exists_setIdx {x : ℤ} (h : s.timeout e = some x) (i : ℤ) :
    ∃ s', s.setIdx e i = some s' ∧ s'.p = s.p ∧ s'.n = s.n ∧
      (∀ a, s'.timeout a = s.timeout a) ∧ s'.idx e = some i ∧
      ∀ a, a ≠ e → s'.nodes.lookup a = s.nodes.lookup a := by
  obtain ⟨node, hnode, hx⟩ := exists_lookup_of_timeout h
  refine ⟨{ s with nodes := s.nodes.insert e { node with minheap_idx := i } },
    by rw [setIdx, Memory.write_eq hnode]; rfl, rfl, rfl, fun a => ?_, ?_, fun a ha => ?_⟩
  · simp only [MinHeap.timeout]
    rw [Table.lookup_insert_eq]
    split_ifs with ha
    · rw [ha, hnode]
      rfl
    · rfl
  · simp only [idx]
    rw [Table.lookup_insert_eq, if_pos rfl]
    rfl
  · exact (Table.lookup_insert_eq _ _ _ _).trans (if_neg ha)

/-- A node is put into the array. -/
theorem exists_put {x : ℤ} {i : ℕ} (hi : i < s.p.length) (h : s.timeout e = some x) :
    ∃ s', s.put i e = some s' ∧ s'.p = s.p.set i (some e) ∧ s'.n = s.n ∧
      (∀ a, s'.timeout a = s.timeout a) ∧ s'.idx e = some (i : ℤ) ∧
      ∀ a, a ≠ e → s'.nodes.lookup a = s.nodes.lookup a := by
  obtain ⟨s', hs', hp, hn, htimeout, hidx, hrest⟩ :=
    exists_setIdx (s := { s with p := s.p.set i (some e) }) h i
  exact ⟨s', by rw [put, if_pos hi, hs'], hp, hn, htimeout, hidx, hrest⟩

theorem entry_set {i j : ℕ} {p : List (Option Addr)} (hi : i < p.length)
    (hp : s.p = p.set i (some e)) : s.entry j = if j = i then some e else p[j]?.join := by
  rw [entry, hp, List.getElem?_set]
  by_cases hij : i = j
  · subst hij
    simp [hi]
  · simp [hij, Ne.symm hij]

theorem getElem?_eq_iff_of_nodup (h : l.Nodup) {i j : ℕ} (hi : l[i]? = some e) :
    l[j]? = some e ↔ j = i := by
  refine ⟨fun hj => ?_, fun hj => hj ▸ hi⟩
  obtain ⟨hi, rfl⟩ := List.getElem?_eq_some_iff.mp hi
  obtain ⟨hj, heq⟩ := List.getElem?_eq_some_iff.mp hj
  exact (h.getElem_inj_iff).mp heq

/-- The hole moves from `hole` to `j`. -/
theorem Around.move (h : Around t s hole l) (hhole : hole < l.length) {j : ℕ} {a : Addr}
    (hj : l[j]? = some a) (hne : j ≠ hole) :
    ∃ s', s.put hole a = some s' ∧ Around t s' j (exchange l hole j) ∧ Alike l s s' := by
  have hjl : j < l.length := (List.getElem?_eq_some_iff.mp hj).1
  have ha : a ∈ l := List.mem_of_getElem? hj
  have hperm := exchange_perm hhole hjl
  obtain ⟨s', hs', hp, hn, htimeout, hidx, hrest⟩ :=
    exists_put (lt_of_lt_of_le hhole h.length_le) (h.timeout a ha)
  refine ⟨s', hs', ⟨?_, hperm.nodup_iff.mpr h.nodup, fun b hb => ?_, fun i b hib hij => ?_⟩,
    hn, htimeout, fun b hb => hrest b fun heq => hb (heq ▸ ha)⟩
  · rw [length_exchange, hp, List.length_set]
    exact h.length_le
  · rw [htimeout]
    exact h.timeout b (hperm.mem_iff.mp hb)
  · rw [getElem?_exchange hhole hjl] at hib
    rw [entry_set (lt_of_lt_of_le hhole h.length_le) hp]
    by_cases hih : i = hole
    · subst hih
      rw [Equiv.swap_apply_left, hj, Option.some_inj] at hib
      subst hib
      exact ⟨if_pos rfl, hidx⟩
    · rw [Equiv.swap_apply_of_ne_of_ne hih hij] at hib
      have hba : b ≠ a := by
        rintro rfl
        exact hij ((getElem?_eq_iff_of_nodup h.nodup hj).mp hib)
      obtain ⟨hentry, hseat⟩ := h.seat i b hib hih
      rw [if_neg hih]
      refine ⟨hentry, ?_⟩
      rw [idx, hrest b hba]
      exact hseat

/-- The hole is filled. -/
theorem Around.fill (h : Around t s hole l) (he : l[hole]? = some e) :
    ∃ s', s.put hole e = some s' ∧ Around t s' l.length l ∧ Alike l s s' := by
  have hhole : hole < l.length := (List.getElem?_eq_some_iff.mp he).1
  have hmem : e ∈ l := List.mem_of_getElem? he
  obtain ⟨s', hs', hp, hn, htimeout, hidx, hrest⟩ :=
    exists_put (lt_of_lt_of_le hhole h.length_le) (h.timeout e hmem)
  refine ⟨s', hs', ⟨?_, h.nodup, fun b hb => ?_, fun i b hib _ => ?_⟩,
    hn, htimeout, fun b hb => hrest b fun heq => hb (heq ▸ hmem)⟩
  · rw [hp, List.length_set]
    exact h.length_le
  · rw [htimeout]
    exact h.timeout b hb
  · rw [entry_set (lt_of_lt_of_le hhole h.length_le) hp]
    by_cases hih : i = hole
    · subst hih
      rw [he, Option.some_inj] at hib
      subst hib
      exact ⟨if_pos rfl, hidx⟩
    · have hbe : b ≠ e := by
        rintro rfl
        exact hih ((getElem?_eq_iff_of_nodup h.nodup he).mp hib)
      obtain ⟨hentry, hseat⟩ := h.seat i b hib hih
      rw [if_neg hih]
      refine ⟨hentry, ?_⟩
      rw [idx, hrest b hbe]
      exact hseat

/-- The comparison of two nodes of the heap. -/
theorem elemGreater_eq {a b : Addr} {x y : ℤ} (ha : s.timeout a = some x)
    (hb : s.timeout b = some y) : s.elemGreater a b = some (decide (y < x)) := by
  rw [elemGreater, ha, hb]
  rfl

/-! ## The sifts -/

/-- What a sift ends in: the nodes in some other order, with no hole. -/
def SiftsTo (t : Addr → ℤ) (s : MinHeap) (l : List Addr) (r : Option MinHeap) : Prop :=
  ∃ s' l', r = some s' ∧ l'.Perm l ∧ Around t s' l'.length l' ∧ Alike l s s' ∧
    Ordered (keys t l') l'.length

/-- A sift ends here. -/
theorem Around.siftsTo (h : Around t s hole l) (he : l[hole]? = some e)
    (hord : Ordered (keys t l) l.length) : SiftsTo t s l (s.put hole e) := by
  obtain ⟨s', hs', haround, halike⟩ := h.fill he
  exact ⟨s', l, hs', .refl l, haround, halike, hord⟩

/-- A sift goes on after the hole was moved. -/
theorem SiftsTo.after {r : Option MinHeap} (h : SiftsTo t s' l' r) (hperm : l'.Perm l)
    (halike : Alike l s s') : SiftsTo t s l r := by
  obtain ⟨s'', l'', hr, hl, haround, hrest, hord⟩ := h
  exact ⟨s'', l'', hr, hl.trans hperm, haround, halike.trans (hrest.perm hperm.symm), hord⟩

theorem shiftUp_spec (h : Around t s hole l) (he : l[hole]? = some e)
    (hup : UpFrom (keys t l) l.length hole) : SiftsTo t s l (s.shiftUp hole e) := by
  induction hole using Nat.strong_induction_on generalizing s l with
  | _ hole ih =>
    have hhole : hole < l.length := (List.getElem?_eq_some_iff.mp he).1
    have hmem : e ∈ l := List.mem_of_getElem? he
    rw [shiftUp]
    split_ifs with hpos
    · have hlt : parent hole < hole := parent_lt hpos
      obtain ⟨above, habove⟩ : ∃ a, l[parent hole]? = some a :=
        ⟨_, List.getElem?_eq_getElem (hlt.trans hhole)⟩
      have hgreater := elemGreater_eq (h.timeout above (List.mem_of_getElem? habove))
        (h.timeout e hmem)
      show SiftsTo t s l ((s.entry (parent hole)).bind _)
      rw [(h.seat _ _ habove hlt.ne).1, Option.bind_some, hgreater]
      by_cases hle : t e < t above
      · obtain ⟨s', hs', haround, halike⟩ := h.move hhole habove hlt.ne
        simp only [hle, decide_true, Option.bind_eq_bind, Option.bind_some, if_true, hs']
        have hexch : (exchange l hole (parent hole))[parent hole]? = some e := by
          rw [getElem?_exchange hhole (hlt.trans hhole), Equiv.swap_apply_right, he]
        have hup' : UpFrom (keys t (exchange l hole (parent hole)))
            (exchange l hole (parent hole)).length (parent hole) := by
          rw [length_exchange, keys_exchange hhole (hlt.trans hhole), Equiv.swap_comm]
          refine hup.swap hpos hhole ?_
          rw [keys_of_getElem? he, keys_of_getElem? habove]
          exact hle.le
        exact (ih _ hlt haround hexch hup').after (exchange_perm hhole (hlt.trans hhole)) halike
      · simp only [hle, decide_false, Option.bind_eq_bind, Option.bind_some, Bool.false_eq_true,
          if_false]
        refine h.siftsTo he (hup.ordered fun _ => ?_)
        rw [keys_of_getElem? he, keys_of_getElem? habove]
        exact not_lt.mp hle
    · exact h.siftsTo he (hup.ordered fun hpos' => absurd hpos' hpos)

theorem shiftUpUnconditional_spec (h : Around t s hole l) (he : l[hole]? = some e)
    (hpos : 0 < hole) (hup : UpFrom (keys t l) l.length hole)
    (hle : keys t l hole ≤ keys t l (parent hole)) :
    SiftsTo t s l (s.shiftUpUnconditional hole e) := by
  have hhole : hole < l.length := (List.getElem?_eq_some_iff.mp he).1
  have hlt : parent hole < hole := parent_lt hpos
  obtain ⟨above, habove⟩ : ∃ a, l[parent hole]? = some a :=
    ⟨_, List.getElem?_eq_getElem (hlt.trans hhole)⟩
  obtain ⟨s', hs', haround, halike⟩ := h.move hhole habove hlt.ne
  show SiftsTo t s l ((s.entry (parent hole)).bind _)
  rw [(h.seat _ _ habove hlt.ne).1, Option.bind_some, hs']
  have hexch : (exchange l hole (parent hole))[parent hole]? = some e := by
    rw [getElem?_exchange hhole (hlt.trans hhole), Equiv.swap_apply_right, he]
  have hup' : UpFrom (keys t (exchange l hole (parent hole)))
      (exchange l hole (parent hole)).length (parent hole) := by
    rw [length_exchange, keys_exchange hhole (hlt.trans hhole), Equiv.swap_comm]
    exact hup.swap hpos hhole hle
  exact (shiftUp_spec haround hexch hup').after (exchange_perm hhole (hlt.trans hhole)) halike

/-- The child that the loop of `minheap_shift_down_` picks. -/
theorem leftFirst_spec (h : Around t s hole l) {n : ℕ} (hn : n = l.length)
    (hle : 2 * (hole + 1) ≤ n) :
    ∃ left : Bool, leftFirst n s (2 * (hole + 1)) = some left ∧
      IsChild l.length hole (if left then 2 * (hole + 1) - 1 else 2 * (hole + 1)) ∧
      ∀ i, IsChild l.length hole i →
        keys t l (if left then 2 * (hole + 1) - 1 else 2 * (hole + 1)) ≤ keys t l i := by
  subst hn
  by_cases hlast : 2 * (hole + 1) = l.length
  · refine ⟨true, if_pos hlast, isChild_iff.mpr ⟨by rw [if_pos rfl]; omega, ?_⟩, fun i hi => ?_⟩
    · exact .inl (by rw [if_pos rfl]; omega)
    · obtain ⟨hin, rfl | rfl⟩ := isChild_iff.mp hi
      · rw [if_pos rfl, show 2 * (hole + 1) - 1 = hole * 2 + 1 by omega]
      · omega
  · obtain ⟨a, ha⟩ : ∃ a, l[2 * (hole + 1) - 1]? = some a :=
      ⟨_, List.getElem?_eq_getElem (by omega)⟩
    obtain ⟨b, hb⟩ : ∃ b, l[2 * (hole + 1)]? = some b := ⟨_, List.getElem?_eq_getElem (by omega)⟩
    have hgreater := elemGreater_eq (h.timeout b (List.mem_of_getElem? hb))
      (h.timeout a (List.mem_of_getElem? ha))
    refine ⟨decide (t a < t b), ?_, ?_, fun i hi => ?_⟩
    · rw [leftFirst, if_neg hlast, (h.seat _ _ hb (by omega)).1, (h.seat _ _ ha (by omega)).1]
      exact hgreater
    · rw [isChild_iff]
      split_ifs <;> omega
    · have hi' : i = 2 * (hole + 1) - 1 ∨ i = 2 * (hole + 1) := by
        have := isChild_iff.mp hi
        omega
      by_cases hlt : t a < t b
      · simp only [hlt, decide_true, if_true]
        rcases hi' with rfl | rfl
        · exact le_rfl
        · rw [keys_of_getElem? ha, keys_of_getElem? hb]
          exact hlt.le
      · simp only [hlt, decide_false, Bool.false_eq_true, if_false]
        rcases hi' with rfl | rfl
        · rw [keys_of_getElem? ha, keys_of_getElem? hb]
          exact not_lt.mp hlt
        · exact le_rfl

theorem shiftDownLoop_spec {n : ℕ} (hn : n = l.length) (h : Around t s hole l)
    (he : l[hole]? = some e) (hdown : DownFrom (keys t l) l.length hole) :
    SiftsTo t s l (shiftDownLoop n s hole e) := by
  induction hm : n - hole using Nat.strong_induction_on generalizing hole s l with
  | _ m ih =>
    have hhole : hole < l.length := (List.getElem?_eq_some_iff.mp he).1
    have hmem : e ∈ l := List.mem_of_getElem? he
    rw [shiftDownLoop]
    split_ifs with hle
    · obtain ⟨left, hleft, hchild, hmin⟩ := leftFirst_spec h hn hle
      rw [hleft, Option.bind_eq_bind, Option.bind_some]
      generalize hc : (if left then 2 * (hole + 1) - 1 else 2 * (hole + 1)) = child at hchild hmin
      have hcl : child < l.length := hchild.2.1
      have hne : child ≠ hole := by
        have := isChild_iff.mp hchild
        omega
      obtain ⟨below, hbelow⟩ : ∃ a, l[child]? = some a := ⟨_, List.getElem?_eq_getElem hcl⟩
      have hgreater := elemGreater_eq (h.timeout e hmem)
        (h.timeout below (List.mem_of_getElem? hbelow))
      simp only [(h.seat _ _ hbelow hne).1, hgreater, Option.bind_eq_bind, Option.bind_some]
      by_cases hlt : t below < t e
      · obtain ⟨s', hs', haround, halike⟩ := h.move hhole hbelow hne
        simp only [hlt, decide_true, Option.bind_some, if_true, hs']
        have hexch : (exchange l hole child)[child]? = some e := by
          rw [getElem?_exchange hhole hcl, Equiv.swap_apply_right, he]
        have hdown' : DownFrom (keys t (exchange l hole child)) (exchange l hole child).length
            child := by
          rw [length_exchange, keys_exchange hhole hcl]
          refine hdown.loose.swap hchild ?_ hmin
          rw [keys_of_getElem? he, keys_of_getElem? hbelow]
          exact hlt.le
        have hlen : n = (exchange l hole child).length := by rw [length_exchange, hn]
        have hdec : n - child < m := by
          have := isChild_iff.mp hchild
          omega
        exact (ih _ hdec hlen haround hexch hdown' rfl).after (exchange_perm hhole hcl) halike
      · simp only [hlt, decide_false, Bool.false_eq_true, if_false]
        refine h.siftsTo he (hdown.ordered fun i hi => ?_)
        refine le_trans ?_ (hmin i hi)
        rw [keys_of_getElem? he, keys_of_getElem? hbelow]
        exact not_lt.mp hlt
    · refine h.siftsTo he (hdown.ordered fun i hi => ?_)
      have := isChild_iff.mp hi
      omega

theorem shiftDown_spec (hn : s.n = l.length) (h : Around t s hole l) (he : l[hole]? = some e)
    (hdown : DownFrom (keys t l) l.length hole) : SiftsTo t s l (s.shiftDown hole e) :=
  shiftDownLoop_spec hn h he hdown

/-- A node is put in the place of another one. -/
theorem settle_spec (hn : s.n = l.length) (h : Around t s hole l) (he : l[hole]? = some e)
    (hloose : Loose (keys t l) l.length hole) : SiftsTo t s l (s.settle hole e) := by
  have hhole : hole < l.length := (List.getElem?_eq_some_iff.mp he).1
  have hmem : e ∈ l := List.mem_of_getElem? he
  rw [settle]
  by_cases hpos : 0 < hole
  · have hlt : parent hole < hole := parent_lt hpos
    obtain ⟨above, habove⟩ : ∃ a, l[parent hole]? = some a :=
      ⟨_, List.getElem?_eq_getElem (hlt.trans hhole)⟩
    have hgreater := elemGreater_eq (h.timeout above (List.mem_of_getElem? habove))
      (h.timeout e hmem)
    rw [if_pos hpos]
    show SiftsTo t s l ((s.entry (parent hole)).bind _)
    rw [(h.seat _ _ habove hlt.ne).1, Option.bind_some, hgreater]
    by_cases hle : t e < t above
    · have hkeys : keys t l hole ≤ keys t l (parent hole) := by
        rw [keys_of_getElem? he, keys_of_getElem? habove]
        exact hle.le
      simp only [hle, decide_true, Option.bind_eq_bind, Option.bind_some, if_true]
      exact shiftUpUnconditional_spec h he hpos (hloose.upFrom_of_le hpos hkeys) hkeys
    · simp only [hle, decide_false, Option.bind_eq_bind, Option.bind_some, Bool.false_eq_true,
        if_false]
      refine shiftDown_spec hn h he (hloose.downFrom_of_le fun _ => ?_)
      rw [keys_of_getElem? he, keys_of_getElem? habove]
      exact not_lt.mp hle
  · rw [if_neg hpos]
    exact shiftDown_spec hn h he (hloose.downFrom_of_le fun hpos' => absurd hpos' hpos)

end CodeTest.UvLua.MinHeap
