import Mathlib.Order.Lattice
import Mathlib.Data.Set.Defs

/-! # Ordered maps as red-black trees

A map of the kind of `std::map`: a search goes by a comparison that is given with the
map. An insertion goes where the search ends, compares the new key with the last one
again to choose the side, and is followed by recolouring and rotations up to the root. The
comparison is any function, and it may fail to return. Where it is a linear order on the
keys in use (`Compares`), the tree is the map of its entries (`Ordered.find`,
`Ordered.insert`); where it holds both ways, an entry can stand on the side of another to
which no search for its key goes (`find_crossed`). -/

namespace Lockout.Lib.RedBlackTree

inductive Color
  | red
  | black
  deriving DecidableEq, Repr

inductive Tree (κ ν : Type)
  | leaf
  | node (color : Color) (left : Tree κ ν) (key : κ) (value : ν) (right : Tree κ ν)
  deriving Repr

namespace Tree
variable {κ ν : Type}

/-- The entries from left to right. -/
def toList : Tree κ ν → List (κ × ν)
  | .leaf => []
  | .node _ left key value right => left.toList ++ (key, value) :: right.toList

def blacken : Tree κ ν → Tree κ ν
  | .leaf => .leaf
  | .node _ left key value right => .node .black left key value right

/-- The node over a left subtree that an insertion has just changed. Below a black node a
red child of a red one is given way to by recolouring where the other subtree is red too,
else by a rotation. -/
def rebalanceLeft : Color → Tree κ ν → κ → ν → Tree κ ν → Tree κ ν
  | .black, .node .red (.node .red a k v b) k' v' c, key, value, .node .red d l w e =>
    .node .red (.node .black (.node .red a k v b) k' v' c) key value (.node .black d l w e)
  | .black, .node .red a k v (.node .red b k' v' c), key, value, .node .red d l w e =>
    .node .red (.node .black a k v (.node .red b k' v' c)) key value (.node .black d l w e)
  | .black, .node .red (.node .red a k v b) k' v' c, key, value, d =>
    .node .black (.node .red a k v b) k' v' (.node .red c key value d)
  | .black, .node .red a k v (.node .red b k' v' c), key, value, d =>
    .node .black (.node .red a k v b) k' v' (.node .red c key value d)
  | color, left, key, value, right => .node color left key value right

/-- The same over a right subtree. -/
def rebalanceRight : Color → Tree κ ν → κ → ν → Tree κ ν → Tree κ ν
  | .black, .node .red a k v b, key, value, .node .red c k' v' (.node .red d l w e) =>
    .node .red (.node .black a k v b) key value (.node .black c k' v' (.node .red d l w e))
  | .black, .node .red a k v b, key, value, .node .red (.node .red c k' v' d) l w e =>
    .node .red (.node .black a k v b) key value (.node .black (.node .red c k' v' d) l w e)
  | .black, a, key, value, .node .red b k v (.node .red c k' v' d) =>
    .node .black (.node .red a key value b) k v (.node .red c k' v' d)
  | .black, a, key, value, .node .red (.node .red b k v c) k' v' d =>
    .node .black (.node .red a key value b) k v (.node .red c k' v' d)
  | color, left, key, value, right => .node color left key value right

/-- The last entry at which a search for `k` has gone left, `best` when it never does. -/
def lowerBound (lt : κ → κ → Option Bool) (k : κ) :
    Tree κ ν → Option (κ × ν) → Option (Option (κ × ν))
  | .leaf, best => some best
  | .node _ left key value right, best => do
    if ← lt key k then lowerBound lt k right best
    else lowerBound lt k left (some (key, value))

/-- The value of a key that compares neither way with `k`. -/
def find (lt : κ → κ → Option Bool) (k : κ) (t : Tree κ ν) : Option (Option ν) := do
  match ← lowerBound lt k t none with
  | none => some none
  | some (key, value) => if ← lt k key then some none else some (some value)

/-- A new entry at a node without a right child, where a search for `k` has gone right.
The side is asked for again, the other way round, and a left subtree is written over. -/
def link (lt : κ → κ → Option Bool) (k : κ) (v : ν) (color : Color) (left : Tree κ ν) (key : κ)
    (value : ν) : Option (Tree κ ν) := do
  if ← lt k key then some (.node color (.node .red .leaf k v .leaf) key value .leaf)
  else some (.node color left key value (.node .red .leaf k v .leaf))

/-- A new entry where the search for `k` ends. -/
def insertBelow (lt : κ → κ → Option Bool) (k : κ) (v : ν) : Tree κ ν → Option (Tree κ ν)
  | .leaf => some (.node .red .leaf k v .leaf)
  | .node color left key value right => do
    if ← lt key k then
      match right with
      | .leaf => link lt k v color left key value
      | _ =>
        let right ← insertBelow lt k v right
        some (rebalanceRight color left key value right)
    else
      -- `find` has compared: `k` is below the last entry the search goes left at
      let left ← insertBelow lt k v left
      some (rebalanceLeft color left key value right)

/-- A new entry, for a key that `find` does not find. The pointers that a map keeps to its
first and its last entry say what the tree does as long as no entry is written over. -/
def insert (lt : κ → κ → Option Bool) (k : κ) (v : ν) (t : Tree κ ν) : Option (Tree κ ν) :=
  (insertBelow lt k v t).map blacken

section Entries
variable {color : Color} {left right t : Tree κ ν} {key : κ} {value : ν}

@[simp] theorem toList_leaf : (leaf : Tree κ ν).toList = [] := rfl

@[simp] theorem toList_node : (node color left key value right).toList =
    left.toList ++ (key, value) :: right.toList := rfl

@[simp] theorem toList_blacken : t.blacken.toList = t.toList := by cases t <;> rfl

@[simp] theorem toList_rebalanceLeft : (rebalanceLeft color left key value right).toList =
    left.toList ++ (key, value) :: right.toList := by
  unfold rebalanceLeft
  split <;> simp

@[simp] theorem toList_rebalanceRight : (rebalanceRight color left key value right).toList =
    left.toList ++ (key, value) :: right.toList := by
  unfold rebalanceRight
  split <;> simp

end Entries

section Steps
variable {lt : κ → κ → Option Bool} {color : Color} {left right : Tree κ ν} {k key : κ}
  {v value : ν}

theorem insertBelow_left (hlt : lt key k = some false) :
    insertBelow lt k v (.node color left key value right) =
      (insertBelow lt k v left).map fun left => rebalanceLeft color left key value right := by
  cases right <;>
    · simp only [insertBelow, hlt, Option.map_eq_bind]
      rfl

theorem insertBelow_right (hlt : lt key k = some true) (hright : right ≠ .leaf) :
    insertBelow lt k v (.node color left key value right) =
      (insertBelow lt k v right).map fun right => rebalanceRight color left key value right := by
  cases right with
  | leaf => exact absurd rfl hright
  | node =>
    simp only [insertBelow, hlt, Option.map_eq_bind]
    rfl

theorem insertBelow_link (hlt : lt key k = some true) (hlt' : lt k key = some false) :
    insertBelow lt k v (.node color left key value .leaf) =
      some (.node color left key value (.node .red .leaf k v .leaf)) := by
  simp [insertBelow, link, hlt, hlt']

end Steps

/-! ## A comparison that holds both ways -/

/-- The tree of one entry. -/
def single (a : κ) (v : ν) : Tree κ ν := .node .black .leaf a v .leaf

/-- The tree of two entries whose keys compare both ways: the search for the second one
has gone right, and its entry stands on the left. -/
def crossed (a : κ) (v : ν) (b : κ) (w : ν) : Tree κ ν :=
  .node .black (.node .red .leaf b w .leaf) a v .leaf

section BothWays
variable {lt : κ → κ → Option Bool} {a b : κ} {v w x : ν}

theorem insert_leaf : insert lt a v .leaf = some (single a v) := rfl

theorem find_single (hab : lt a b = some true) : find lt b (single a v) = some none := by
  simp [find, lowerBound, single, hab]

theorem find_single_eq_none (haa : lt a a = none) : find lt a (single a v) = none := by
  simp [find, lowerBound, single, haa]

theorem insert_single (hab : lt a b = some true) (hba : lt b a = some true) :
    insert lt b w (single a v) = some (crossed a v b w) := by
  simp [insert, insertBelow, link, blacken, single, crossed, hab, hba]

/-- A search for the second key goes right at the first one and misses its entry. -/
theorem find_crossed (hab : lt a b = some true) : find lt b (crossed a v b w) = some none := by
  simp [find, lowerBound, crossed, hab]

/-- Another entry for the second key is written over the one that is there. -/
theorem insert_crossed (hab : lt a b = some true) (hba : lt b a = some true) :
    insert lt b x (crossed a v b w) = some (crossed a v b x) := by
  simp [insert, insertBelow, link, blacken, crossed, hab, hba]

end BothWays

/-! ## Comparisons that are an order -/

variable [LinearOrder κ]

/-- On the keys of `S` the comparison returns what the order says. -/
def Compares (lt : κ → κ → Option Bool) (S : Set κ) : Prop :=
  ∀ a ∈ S, ∀ b ∈ S, lt a b = some (decide (a < b))

/-- The entries have keys of `S`, rising from left to right. -/
structure Ordered (S : Set κ) (t : Tree κ ν) : Prop where
  keys : ∀ p ∈ t.toList, p.1 ∈ S
  sorted : t.toList.Pairwise fun p q => p.1 < q.1

section Order
variable {lt : κ → κ → Option Bool} {S : Set κ} {color : Color} {left right t : Tree κ ν}
  {k key : κ} {v value : ν} {best : Option (κ × ν)}

theorem ordered_leaf : Ordered S (leaf : Tree κ ν) where
  keys := by simp
  sorted := by simp

theorem ordered_node : Ordered S (node color left key value right) ↔
    Ordered S left ∧ Ordered S right ∧ key ∈ S ∧ (∀ p ∈ left.toList, p.1 < key) ∧
      ∀ p ∈ right.toList, key < p.1 := by
  constructor
  · rintro ⟨hkeys, hsorted⟩
    rw [toList_node] at hkeys hsorted
    obtain ⟨hleft, hnode, hcross⟩ := List.pairwise_append.mp hsorted
    obtain ⟨habove, hright⟩ := List.pairwise_cons.mp hnode
    exact ⟨⟨fun p hp => hkeys p (List.mem_append_left _ hp), hleft⟩,
      ⟨fun p hp => hkeys p (by simp [hp]), hright⟩, hkeys (key, value) (by simp),
      fun p hp => hcross p hp _ List.mem_cons_self, habove⟩
  · rintro ⟨hleft, hright, hkey, hbelow, habove⟩
    refine ⟨fun p hp => ?_, List.pairwise_append.mpr ⟨hleft.sorted,
      List.pairwise_cons.mpr ⟨habove, hright.sorted⟩, fun p hp q hq => ?_⟩⟩
    · rcases List.mem_append.mp hp with hp | hp
      · exact hleft.keys p hp
      · rcases List.mem_cons.mp hp with rfl | hp
        · exact hkey
        · exact hright.keys p hp
    · rcases List.mem_cons.mp hq with rfl | hq
      · exact hbelow p hp
      · exact lt_trans (hbelow p hp) (habove q hq)

/-- The search comes to the first entry that is not below its key. -/
theorem Ordered.lowerBound (h : Ordered S t) (hlt : Compares lt S) (hk : k ∈ S) :
    lowerBound lt k t best = some ((t.toList.find? fun p => !decide (p.1 < k)).or best) := by
  induction t generalizing best with
  | leaf => rfl
  | node color left key value right ihl ihr =>
    obtain ⟨hleft, hright, hkey, hbelow, -⟩ := ordered_node.mp h
    rw [Tree.lowerBound, hlt key hkey k hk, Option.bind_eq_bind, Option.bind_some, toList_node,
      List.find?_append, List.find?_cons]
    by_cases hless : key < k
    · have hnone : (left.toList.find? fun p => !decide (p.1 < k)) = none := by
        refine List.find?_eq_none.mpr fun p hp => ?_
        simpa using lt_trans (hbelow p hp) hless
      simp [hless, hnone, ihr hright]
    · simp [hless, ihl hleft]

/-- What is found is the entry of the key. -/
theorem Ordered.find (h : Ordered S t) (hlt : Compares lt S) (hk : k ∈ S) :
    ∃ found, find lt k t = some found ∧ ∀ v, found = some v ↔ (k, v) ∈ t.toList := by
  rw [Tree.find, h.lowerBound hlt hk, Option.or_none, Option.bind_eq_bind, Option.bind_some]
  cases hbound : t.toList.find? fun p => !decide (p.1 < k) with
  | none =>
    refine ⟨none, rfl, fun v => iff_of_false nofun fun hmem => ?_⟩
    simpa using List.find?_eq_none.mp hbound (k, v) hmem
  | some bound =>
    obtain ⟨key, value⟩ := bound
    obtain ⟨hnot, before, after, hsplit, hbefore⟩ := List.find?_eq_some_iff_append.mp hbound
    have hle : k ≤ key := by simpa using hnot
    have hbelow : ∀ v, (k, v) ∉ before := fun v hmem => by simpa using hbefore (k, v) hmem
    have habove : ∀ p ∈ after, key < p.1 := by
      have hsorted := h.sorted
      rw [hsplit] at hsorted
      exact (List.pairwise_cons.mp (List.pairwise_append.mp hsorted).2.1).1
    have hkey : key ∈ S := h.keys (key, value) (by simp [hsplit])
    dsimp only
    rw [hlt k hk key hkey, Option.bind_eq_bind, Option.bind_some]
    rcases hle.lt_or_eq with hless | rfl
    · refine ⟨none, by simp [hless], fun v => iff_of_false nofun fun hmem => ?_⟩
      rw [hsplit] at hmem
      rcases List.mem_append.mp hmem with hmem | hmem
      · exact hbelow v hmem
      · rcases List.mem_cons.mp hmem with heq | hmem
        · exact hless.ne (Prod.mk.inj heq).1
        · exact lt_asymm hless (habove _ hmem)
    · refine ⟨some value, by simp, fun v => ?_⟩
      rw [hsplit, Option.some.injEq]
      constructor
      · rintro rfl
        simp
      · intro hmem
        rcases List.mem_append.mp hmem with hmem | hmem
        · exact absurd hmem (hbelow v)
        · rcases List.mem_cons.mp hmem with heq | hmem
          · exact (Prod.mk.inj heq).2.symm
          · exact absurd (habove _ hmem) (lt_irrefl k)

/-- The new entry stands behind those with smaller keys. -/
theorem Ordered.insertBelow (h : Ordered S t) (hlt : Compares lt S) (hk : k ∈ S) :
    ∃ t' before after, insertBelow lt k v t = some t' ∧ t.toList = before ++ after ∧
      t'.toList = before ++ (k, v) :: after ∧ (∀ p ∈ before, p.1 < k) ∧
      ∀ p ∈ after, ¬ p.1 < k := by
  induction t with
  | leaf => exact ⟨_, [], [], rfl, rfl, rfl, nofun, nofun⟩
  | node color left key value right ihl ihr =>
    obtain ⟨hleft, hright, hkey, hbelow, habove⟩ := ordered_node.mp h
    have hlt' := hlt key hkey k hk
    by_cases hless : key < k
    · rw [decide_eq_true hless] at hlt'
      have hlast : ∀ before : List (κ × ν), (∀ p ∈ before, p.1 < k) →
          ∀ p ∈ left.toList ++ (key, value) :: before, p.1 < k := by
        intro before hbefore p hp
        rcases List.mem_append.mp hp with hp | hp
        · exact lt_trans (hbelow p hp) hless
        · rcases List.mem_cons.mp hp with rfl | hp
          · exact hless
          · exact hbefore p hp
      by_cases hleaf : right = .leaf
      · subst hleaf
        have hnot : lt k key = some false := by
          rw [hlt k hk key hkey, decide_eq_false (lt_asymm hless)]
        exact ⟨_, left.toList ++ [(key, value)], [], insertBelow_link hlt' hnot, by simp, by simp,
          hlast [] nofun, nofun⟩
      · obtain ⟨t', before, after, hrun, hright', ht', hbefore, hafter⟩ := ihr hright
        rw [insertBelow_right hlt' hleaf, hrun]
        refine ⟨_, left.toList ++ (key, value) :: before, after, rfl, ?_, ?_,
          hlast before hbefore, hafter⟩
        · simp [hright']
        · simp [ht']
    · rw [decide_eq_false hless] at hlt'
      obtain ⟨t', before, after, hrun, hleft', ht', hbefore, hafter⟩ := ihl hleft
      rw [insertBelow_left hlt', hrun]
      refine ⟨_, before, after ++ (key, value) :: right.toList, rfl, ?_, ?_, hbefore, ?_⟩
      · simp [hleft']
      · simp [ht']
      · intro p hp
        rcases List.mem_append.mp hp with hp | hp
        · exact hafter p hp
        · rcases List.mem_cons.mp hp with rfl | hp
          · exact hless
          · exact fun hlow => hless (lt_trans (habove p hp) hlow)

/-- An insertion adds the entry, and the tree stays in order. -/
theorem Ordered.insert (h : Ordered S t) (hlt : Compares lt S) (hk : k ∈ S)
    (hnew : ∀ w, (k, w) ∉ t.toList) :
    ∃ t', insert lt k v t = some t' ∧ Ordered S t' ∧
      ∀ p, p ∈ t'.toList ↔ p = (k, v) ∨ p ∈ t.toList := by
  obtain ⟨t', before, after, hrun, hsplit, ht', hbefore, hafter⟩ :=
    @Ordered.insertBelow κ ν _ lt S t k v h hlt hk
  have hmem : ∀ p, p ∈ t'.blacken.toList ↔ p = (k, v) ∨ p ∈ t.toList := by
    intro p
    rw [toList_blacken, ht', hsplit]
    simp [or_left_comm]
  have hkeys := h.keys
  have hsorted := h.sorted
  rw [hsplit] at hsorted hnew
  obtain ⟨hsorted, hsorted', hcross⟩ := List.pairwise_append.mp hsorted
  refine ⟨t'.blacken, by rw [Tree.insert, hrun]; rfl, ⟨fun p hp => ?_, ?_⟩, hmem⟩
  · rcases (hmem p).mp hp with rfl | hp
    · exact hk
    · exact hkeys p hp
  · have habove : ∀ p ∈ after, k < p.1 := by
      intro p hp
      rcases (not_lt.mp (hafter p hp)).lt_or_eq with hlow | rfl
      · exact hlow
      · exact absurd (List.mem_append_right before hp) (hnew p.2)
    rw [toList_blacken, ht']
    refine List.pairwise_append.mpr ⟨hsorted, List.pairwise_cons.mpr ⟨habove, hsorted'⟩, ?_⟩
    intro p hp q hq
    rcases List.mem_cons.mp hq with rfl | hq
    · exact hbefore p hp
    · exact hcross p hp q hq

end Order

end Tree

end Lockout.Lib.RedBlackTree
