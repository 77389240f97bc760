import CacheReplay.Regression.Tree
import Mathlib.Data.List.Perm.Basic
import Mathlib.Data.List.Range

set_option autoImplicit false

namespace CacheReplay.Regression

inductive Growth where
  | leaf (rows : List Nat) (weight : Float32)
  | split (feature : Nat) (threshold : Float32) (left right : Growth)

namespace Growth

def size : Growth → Nat
  | leaf _ _ => 1
  | split _ _ left right => left.size + right.size + 1

def depth : Growth → Nat
  | leaf _ _ => 0
  | split _ _ left right => max left.depth right.depth + 1

/-- The rows of each leaf, from left to right. -/
def parts : Growth → List (List Nat)
  | leaf rows _ => [rows]
  | split _ _ left right => left.parts ++ right.parts

def nodes : Growth → Nat → List Node
  | leaf _ weight, _ => [.leaf weight]
  | split feature threshold left right, offset =>
    .split feature threshold (offset + 1) (offset + 1 + left.size) ::
      (left.nodes (offset + 1) ++ right.nodes (offset + 1 + left.size))

theorem size_pos (g : Growth) : 0 < g.size := by
  cases g <;> simp only [size] <;> omega

theorem depth_lt_size (g : Growth) : g.depth < g.size := by
  induction g with
  | leaf => exact Nat.one_pos
  | split _ _ left right ihl ihr =>
    simp only [depth, size]
    omega

@[simp]
theorem length_nodes (g : Growth) (offset : Nat) : (g.nodes offset).length = g.size := by
  induction g generalizing offset with
  | leaf => rfl
  | split _ _ left right ihl ihr => simp [nodes, size, ihl, ihr]

end Growth

/-- What growing a subtree from some rows at some depth comes to, in any number of steps. -/
inductive Grows (s : Settings) (d : Residuals) : List Nat → Nat → Growth → Prop
  | leaf {rows : List Nat} {depth : Nat} {sum weight : Float32} (total : d.sum rows = .ok sum)
      (stop : chooseCut s d rows sum depth = .ok none) (made : leafOf s rows.length sum = .leaf weight) :
      Grows s d rows depth (.leaf rows weight)
  | split {rows low high : List Nat} {depth : Nat} {sum : Float32} {cut : Cut} {sorted : List (Float32 × Nat)}
      {left right : Growth} (total : d.sum rows = .ok sum)
      (chosen : chooseCut s d rows sum depth = .ok (some cut))
      (ordered : d.sortBy s.sorting cut.feature rows = .ok sorted)
      (divided : divide cut.count (sorted.map (·.2)) = .ok (low, high))
      (lower : Grows s d low (depth + 1) left) (upper : Grows s d high (depth + 1) right) :
      Grows s d rows depth (.split cut.feature cut.threshold left right)

structure Tree.GrownAs (s : Settings) (d : Residuals) (t : Tree) (g : Growth) : Prop where
  grows : Grows s d (List.range d.rows.size) 0 g
  nodes : t.nodes.toList = g.nodes 0

/-- The leaves share all rows out and have enough of them each, if there is more than one, and
the splits stay above the depth limit. -/
structure Growth.Shares (s : Settings) (rows : List Nat) (depth : Nat) (g : Growth) : Prop where
  perm : g.parts.flatten.Perm rows
  shallow : depth ≤ s.maxDepth → depth + g.depth ≤ s.maxDepth
  stocked : (∃ weight, g = .leaf rows weight) ∨ ∀ part ∈ g.parts, max s.minRows 1 ≤ part.length

namespace Growth.Shares
variable {s : Settings} {depth : Nat}

protected theorem leaf (rows : List Nat) (weight : Float32) : (Growth.leaf rows weight).Shares s rows depth :=
  ⟨.of_eq (List.append_nil rows), id, .inl ⟨weight, rfl⟩⟩

theorem all_stocked {g : Growth} {rows : List Nat} (h : g.Shares s rows depth)
    (enough : max s.minRows 1 ≤ rows.length) : ∀ part ∈ g.parts, max s.minRows 1 ≤ part.length := by
  rcases h.stocked with ⟨weight, rfl⟩ | all
  · intro part hpart
    rwa [List.mem_singleton.mp hpart]
  · exact all

protected theorem split {f : Nat} {threshold : Float32} {left right : Growth} {rows low high : List Nat}
    (lower : left.Shares s low (depth + 1)) (upper : right.Shares s high (depth + 1))
    (perm : (low ++ high).Perm rows) (shallow : depth < s.maxDepth) (enough : max s.minRows 1 ≤ low.length)
    (enough' : max s.minRows 1 ≤ high.length) : (Growth.split f threshold left right).Shares s rows depth where
  perm := by
    rw [parts, List.flatten_append]
    exact (lower.perm.append upper.perm).trans perm
  shallow _ := by
    have := lower.shallow shallow
    have := upper.shallow shallow
    simp only [Growth.depth]
    omega
  stocked := .inr fun part hpart => by
    rcases List.mem_append.mp hpart with hpart | hpart
    · exact lower.all_stocked enough part hpart
    · exact upper.all_stocked enough' part hpart

end Growth.Shares

def Tree.Grown (s : Settings) (d : Residuals) (t : Tree) : Prop :=
  ∃ g, t.GrownAs s d g ∧ g.Shares s (List.range d.rows.size) 0

def Node.children : Node → List Nat
  | .leaf _ => []
  | .split _ _ left right => [left, right]

/-- A tree whose nodes stand in preorder: a left child follows its parent, a right child the
left subtree, and each node but the first one is the child of one node. -/
structure Tree.Preorder (t : Tree) : Prop where
  root : 0 < t.nodes.size
  split : ∀ {i f : Nat} {threshold : Float32} {left right : Nat},
    t.nodes[i]? = some (.split f threshold left right) → left = i + 1 ∧ left < right ∧ right < t.nodes.size
  once : (t.nodes.toList.flatMap Node.children).Perm (List.range' 1 (t.nodes.size - 1))

namespace Growth

theorem children_of_getElem? {g : Growth} {offset i f left right : Nat} {threshold : Float32}
    (h : (g.nodes offset)[i]? = some (.split f threshold left right)) :
    left = offset + i + 1 ∧ left < right ∧ right < offset + g.size := by
  induction g generalizing offset i with
  | leaf _ _ =>
    rw [nodes, List.getElem?_singleton] at h
    split at h <;> cases h
  | split _ _ l r ihl ihr =>
    have pos := l.size_pos
    have pos' := r.size_pos
    cases i with
    | zero =>
      rw [nodes, List.getElem?_cons_zero] at h
      cases h
      refine ⟨rfl, by omega, ?_⟩
      simp only [size]
      omega
    | succ i =>
      rw [nodes, List.getElem?_cons_succ] at h
      simp only [size]
      by_cases inside : i < l.size
      · rw [List.getElem?_append_left (by simpa using inside)] at h
        have := ihl h
        omega
      · rw [List.getElem?_append_right (by simpa using inside), length_nodes] at h
        have := ihr h
        omega

theorem perm_children (g : Growth) (offset : Nat) :
    ((g.nodes offset).flatMap Node.children).Perm (List.range' (offset + 1) (g.size - 1)) := by
  induction g generalizing offset with
  | leaf => exact .nil
  | split _ _ l r ihl ihr =>
    have root : ∀ (g : Growth) (first : Nat),
        List.range' first g.size = first :: List.range' (first + 1) (g.size - 1) := by
      intro g first
      rw [← List.range'_succ, Nat.sub_add_cancel g.size_pos]
    have all : List.range' (offset + 1) (l.size + r.size + 1 - 1) =
        ((offset + 1) :: List.range' (offset + 1 + 1) (l.size - 1)) ++
          ((offset + 1 + l.size) :: List.range' (offset + 1 + l.size + 1) (r.size - 1)) := by
      rw [← root, ← root, Nat.add_sub_cancel, List.range'_append_1]
    rw [nodes, List.flatMap_cons, List.flatMap_append, size, all]
    refine .cons _ (.trans ?_ List.perm_middle.symm)
    exact .cons _ ((ihl _).append (ihr _))

end Growth

theorem Tree.GrownAs.preorder {s : Settings} {d : Residuals} {t : Tree} {g : Growth} (h : t.GrownAs s d g) :
    t.Preorder := by
  have size : t.nodes.size = g.size := by
    rw [← Array.length_toList, h.nodes, Growth.length_nodes]
  refine ⟨size ▸ g.size_pos, fun {i f threshold left right} hi => ?_, ?_⟩
  · rw [← Array.getElem?_toList, h.nodes] at hi
    have := Growth.children_of_getElem? hi
    omega
  · rw [h.nodes, size]
    exact g.perm_children 0

/-- A row gets from node `i` to node `j` by `k` splits. -/
inductive Tree.Walk (t : Tree) (x : Row) : Nat → Nat → Nat → Prop
  | stay (i : Nat) : Walk t x i i 0
  | down {i j k f left right : Nat} {threshold : Float32}
      (node : t.nodes[i]? = some (.split f threshold left right))
      (rest : Walk t x (if x[f]?.getD 0 < threshold then left else right) j k) : Walk t x i j (k + 1)

namespace Tree
variable {t : Tree} {x : Row}

theorem Walk.weightFrom_eq {i j k steps : Nat} {weight : Float32} (walk : t.Walk x i j k)
    (ends : t.nodes[j]? = some (.leaf weight)) (enough : k < steps) : t.weightFrom x steps i = weight := by
  induction walk generalizing steps with
  | stay i =>
    obtain ⟨steps, rfl⟩ := Nat.exists_eq_succ_of_ne_zero (Nat.ne_of_gt enough)
    rw [weightFrom, ends]
  | down node rest ih =>
    obtain ⟨steps, rfl⟩ := Nat.exists_eq_succ_of_ne_zero (Nat.ne_zero_of_lt enough)
    rw [weightFrom, node]
    exact ih ends (Nat.lt_of_succ_lt_succ enough)

theorem exists_walk (x : Row) (g : Growth) {offset : Nat}
    (stands : ∀ i < g.size, t.nodes[offset + i]? = (g.nodes offset)[i]?) :
    ∃ j k weight, t.Walk x offset j k ∧ t.nodes[j]? = some (.leaf weight) ∧ k ≤ g.depth := by
  induction g generalizing offset with
  | leaf rows weight => exact ⟨offset, 0, weight, .stay offset, stands 0 Nat.one_pos, Nat.le_refl 0⟩
  | split f threshold l r ihl ihr =>
    have root := stands 0 (Growth.size_pos _)
    have lower : ∀ i < l.size, t.nodes[offset + 1 + i]? = (l.nodes (offset + 1))[i]? := by
      intro i hi
      rw [Nat.add_assoc, Nat.add_comm 1, stands (i + 1) (by simp only [Growth.size]; omega), Growth.nodes,
        List.getElem?_cons_succ, List.getElem?_append_left (by simpa using hi)]
    have upper : ∀ i < r.size,
        t.nodes[offset + 1 + l.size + i]? = (r.nodes (offset + 1 + l.size))[i]? := by
      intro i hi
      rw [show offset + 1 + l.size + i = offset + (l.size + i + 1) by omega,
        stands (l.size + i + 1) (by simp only [Growth.size]; omega), Growth.nodes,
        List.getElem?_cons_succ, List.getElem?_append_right (by simp), Growth.length_nodes,
        Nat.add_sub_cancel_left]
    by_cases below : x[f]?.getD 0 < threshold
    · obtain ⟨j, k, weight, walk, ends, short⟩ := ihl lower
      refine ⟨j, k + 1, weight, .down root (by rwa [if_pos below]), ends, ?_⟩
      exact Nat.succ_le_succ (Nat.le_trans short (Nat.le_max_left ..))
    · obtain ⟨j, k, weight, walk, ends, short⟩ := ihr upper
      refine ⟨j, k + 1, weight, .down root (by rwa [if_neg below]), ends, ?_⟩
      exact Nat.succ_le_succ (Nat.le_trans short (Nat.le_max_right ..))

/-- A prediction walks down to a leaf and answers its weight. -/
theorem GrownAs.exists_walk_predict {s : Settings} {d : Residuals} {g : Growth} (h : t.GrownAs s d g)
    (x : Row) : ∃ j k, t.Walk x 0 j k ∧ t.nodes[j]? = some (.leaf (t.predict x)) ∧ k ≤ g.depth := by
  have size : t.nodes.size = g.size := by
    rw [← Array.length_toList, h.nodes, Growth.length_nodes]
  have stands : ∀ i < g.size, t.nodes[0 + i]? = (g.nodes 0)[i]? := by
    intro i _
    rw [Nat.zero_add, ← Array.getElem?_toList, h.nodes]
  obtain ⟨j, k, weight, walk, ends, short⟩ := t.exists_walk x g stands
  refine ⟨j, k, walk, ?_, short⟩
  rw [predict, walk.weightFrom_eq ends (size ▸ Nat.lt_of_le_of_lt short g.depth_lt_size)]
  exact ends

end Tree
end CacheReplay.Regression
