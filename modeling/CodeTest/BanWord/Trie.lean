import CodeTest.Foundations.GreedyScan

/-!
# Banned words in a trie

The word filters: `Trie` of `banword4.lua`, `Tree` of `banword.py`, and the plain search of
`banword1.lua`. A node of the two tries is the same thing, a flag and a table of the nodes below,
and the two ways to insert a word do the same. The searches differ in what they do at a letter that
does not fit: the one in Lua tries it again at the root, the one in Python drops it.

Words and texts are lists of letters: bytes in Lua, characters in Python.
-/

namespace CodeTest

variable {α : Type*}

/-- A node: whether a word ends there, and the nodes below by their letters. -/
inductive Trie (α : Type*)
  | mk (isEnd : Bool) (child : α → Option (Trie α))

namespace Trie

def isEnd : Trie α → Bool
  | mk isEnd _ => isEnd

def child : Trie α → α → Option (Trie α)
  | mk _ child => child

/-- `Trie:new`: the root is an empty table. -/
def new : Trie α := mk false fun _ => none

def insert [DecidableEq α] : Trie α → List α → Trie α
  | mk _ child, [] => mk true child
  | mk isEnd child, c :: word =>
    mk isEnd (Function.update child c (some (insert ((child c).getD new) word)))

/-- The loop of `Trie:search` at `node`. -/
def searchLoop (root : Trie α) : Trie α → List α → List α → Bool × List α
  | node, banWord, [] => (node.isEnd, banWord)
  | node, banWord, char :: text =>
    if (node.child char).isNone ∧ node.isEnd then (true, banWord)
    else
      let node := if (node.child char).isNone then root else node
      match node.child char with
      | some next => searchLoop root next (banWord ++ [char]) text
      | none => searchLoop root node banWord text

def search (root : Trie α) (text : List α) : Bool × List α := searchLoop root root [] text

/-- The root after all words of a list are inserted. -/
def ofWords [DecidableEq α] (words : List (List α)) : Trie α := words.foldl insert new

end Trie

/-- A `TreeNode`: `is_word` is the flag, `children` the table. -/
abbrev Tree := Trie

namespace Tree

/-- `Tree.insert`. -/
def insert [DecidableEq α] (root : Tree α) (word : List α) : Tree α := Trie.insert root word

/-- The loop of `Tree.search` at `node`. -/
def searchLoop (root : Tree α) : Tree α → List α → List α → Bool × List α
  | node, banword, [] => (node.isEnd, banword)
  | node, banword, c :: word =>
    match node.child c with
    | none => if node.isEnd then (true, banword) else searchLoop root root banword word
    | some next => searchLoop root next (banword ++ [c]) word

def search (root : Tree α) (word : List α) : Bool × List α := searchLoop root root [] word

/-- The loop of `Tree.searchall` at `node`. -/
def searchallLoop (root : Tree α) :
    Tree α → List α → List (List α) → List α → List (List α)
  | node, banword, banwords, [] => if node.isEnd then banwords ++ [banword] else banwords
  | node, banword, banwords, c :: word =>
    match node.child c with
    | none =>
      let banwords := if node.isEnd then banwords ++ [banword] else banwords
      let banword := if node.isEnd then [] else banword
      match root.child c with
      | some next => searchallLoop root next (banword ++ [c]) banwords word
      | none => searchallLoop root root banword banwords word
    | some next => searchallLoop root next (banword ++ [c]) banwords word

def searchall (root : Tree α) (word : List α) : List (List α) := searchallLoop root root [] [] word

/-- The root after all words of a list are inserted. -/
def ofWords [DecidableEq α] (words : List (List α)) : Tree α := words.foldl insert Trie.new

end Tree

/-- `checkForbiddenWords`, on the list `forbiddenWords`; `string.find` is called for a plain search.
-/
def checkForbiddenWords [DecidableEq α] (forbiddenWords : List (List α)) (text : List α) : Bool :=
  forbiddenWords.any fun word => decide (word <:+: text)

/-! ## The words of a trie -/

namespace Trie

/-- The node to which the letters lead. -/
def walk : Trie α → List α → Option (Trie α)
  | t, [] => some t
  | t, c :: p => (t.child c).bind fun next => walk next p

@[simp] theorem walk_nil (t : Trie α) : t.walk [] = some t := by
  rw [walk]

theorem walk_concat (t : Trie α) (p : List α) (c : α) :
    t.walk (p ++ [c]) = (t.walk p).bind fun node => node.child c := by
  induction p generalizing t with
  | nil => cases h : t.child c <;> simp [walk, h]
  | cons a p ih =>
    rw [List.cons_append, walk, walk, Option.bind_assoc]
    exact Option.bind_congr fun next _ => ih next

theorem walk_new (p : List α) : (new : Trie α).walk p = if p = [] then some new else none := by
  cases p with
  | nil => simp
  | cons c p => simp [walk, new, child]

@[simp] theorem isEnd_new : (new : Trie α).isEnd = false := rfl

variable [DecidableEq α]

theorem walk_insert_cons (t : Trie α) (c a : α) (word p : List α) :
    (t.insert (c :: word)).walk (a :: p) =
      if a = c then (((t.child c).getD new).insert word).walk p else t.walk (a :: p) := by
  cases t with
  | mk isEnd child =>
    rw [walk, walk, insert]
    simp only [Trie.child, Function.update_apply]
    split_ifs with h
    · rw [Option.bind_some]
    · rfl

/-- The nodes after an insertion: those before and those on the way of the word. -/
theorem isSome_walk_insert (t : Trie α) (word p : List α) :
    ((t.insert word).walk p).isSome ↔ (t.walk p).isSome ∨ p <+: word := by
  induction word generalizing t p with
  | nil =>
    cases t with
    | mk isEnd child => cases p <;> simp [insert, walk, Trie.child]
  | cons c word ih =>
    cases p with
    | nil => simp
    | cons a p =>
      rw [walk_insert_cons, List.cons_prefix_cons]
      split_ifs with h
      · subst h
        rw [ih, walk]
        cases t.child a with
        | none => cases p <;> simp [walk_new]
        | some next => simp
      · simp [h]

/-- The ends after an insertion: those before and that of the word. -/
theorem isEnd_walk_insert (t : Trie α) (word p : List α) :
    ((t.insert word).walk p).any isEnd ↔ (t.walk p).any isEnd ∨ p = word := by
  induction word generalizing t p with
  | nil =>
    cases t with
    | mk isEnd child => cases p <;> simp [insert, walk, Trie.child, Trie.isEnd]
  | cons c word ih =>
    cases p with
    | nil => cases t with
      | mk isEnd child => simp [insert, Trie.isEnd]
    | cons a p =>
      rw [walk_insert_cons]
      split_ifs with h
      · subst h
        rw [ih, walk]
        cases t.child a with
        | none => cases p <;> simp [walk_new]
        | some next => simp
      · simp [h]

variable (words : List (List α))

/-- The nodes of the trie are the beginnings of the words. -/
theorem isSome_walk_ofWords (p : List α) : ((ofWords words).walk p).isSome ↔ Begins words p := by
  have hfold : ∀ t : Trie α, ((words.foldl insert t).walk p).isSome ↔
      (t.walk p).isSome ∨ ∃ w ∈ words, p <+: w := by
    induction words with
    | nil => simp
    | cons w words ih =>
      intro t
      rw [List.foldl_cons, ih, isSome_walk_insert]
      simp [or_assoc]
  rw [ofWords, hfold, walk_new, Begins]
  by_cases hp : p = [] <;> simp [hp]

/-- The ends of the trie are the words. -/
theorem isEnd_walk_ofWords (p : List α) : ((ofWords words).walk p).any isEnd ↔ p ∈ words := by
  have hfold : ∀ t : Trie α, ((words.foldl insert t).walk p).any isEnd ↔
      (t.walk p).any isEnd ∨ p ∈ words := by
    induction words with
    | nil => simp
    | cons w words ih =>
      intro t
      rw [List.foldl_cons, ih, isEnd_walk_insert, List.mem_cons, or_assoc]
  rw [ofWords, hfold, walk_new]
  by_cases hp : p = [] <;> simp [hp]

end Trie

theorem checkForbiddenWords_eq_true_iff [DecidableEq α] (words : List (List α)) (text : List α) :
    checkForbiddenWords words text = true ↔ Occurs words text := by
  simp [checkForbiddenWords, Occurs]

end CodeTest
