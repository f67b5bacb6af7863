import OMR.Lib.Runs

/-!
# The interference graph

`TR_InterferenceGraph`: nodes for entities, and the interferences between them in a
triangular bit matrix, in an adjacency list of each node and in its degree.
-/

namespace OMR.Compiler.InterferenceGraph

/-- An entity, by its address. -/
abbrev Entity := BitVec 64

/-- `_highIndexTable`. -/
def highIndexTable : List (BitVec 64) :=
  [   0,
      0,    1,    3,    6,   10,   15,   21,   28,
     36,   45,   55,   66,   78,   91,  105,  120,
    136,  153,  171,  190,  210,  231,  253,  276,
    300,  325,  351,  378,  406,  435,  465,  496,
    528,  561,  595,  630,  666,  703,  741,  780,
    820,  861,  903,  946,  990, 1035, 1081, 1128,
   1176, 1225, 1275, 1326, 1378, 1431, 1485, 1540,
   1596, 1653, 1711, 1770, 1830, 1891, 1953]

/-- `NUM_PRECOMPUTED_HIGH_INDICES`. -/
def numPrecomputedHighIndices : BitVec 64 := 64#64

/-- `getNodePairToBVIndex` once the indices are ordered. -/
def orderedPairIndex (low high : BitVec 64) : BitVec 64 :=
  if high < numPrecomputedHighIndices then low + highIndexTable.getD high.toNat 0
  else (((high - 1) * high) >>> 1) + low

def getNodePairToBVIndex (index1 index2 : BitVec 32) : BitVec 64 :=
  if index1 < index2 then orderedPairIndex (index1.setWidth 64) (index2.setWidth 64)
  else orderedPairIndex (index2.setWidth 64) (index1.setWidth 64)

/-- `TR_IGNode`. Nodes are known by the order in which they are allocated. -/
structure IGNode where
  entity : Entity
  index : BitVec 32
  degree : ℕ
  adjList : List ℕ

structure Graph where
  numNodes : ℕ
  node : ℕ → IGNode
  /-- The entries of each bucket from the one it points to on, around the circle. -/
  buckets : ℕ → List ℕ
  /-- The bits of `_interferenceMatrix`. -/
  matrix : BitVec 64 → Bool

/-- A graph without nodes. -/
def Graph.initialized : Graph := ⟨0, fun _ => ⟨0, 0, 0, []⟩, fun _ => [], fun _ => false⟩

def entityHashBucket (entity : Entity) : ℕ := (entity >>> 2).toNat % 73

/-- `addIGNodeToEntityHash` for one bucket: the entry goes behind the one that the bucket
has pointed to, and the bucket points to it. -/
def addToBucket (igNode : ℕ) : List ℕ → List ℕ
  | [] => [igNode]
  | prevEntry :: rest => igNode :: (rest ++ [prevEntry])

namespace Graph

def getIGNodeForEntity (g : Graph) (entity : Entity) : Option ℕ :=
  (g.buckets (entityHashBucket entity)).find? fun igNode => (g.node igNode).entity = entity

def addIGNodeToEntityHash (g : Graph) (igNode : ℕ) : Graph :=
  let hashBucket := entityHashBucket (g.node igNode).entity
  { g with
    buckets := Function.update g.buckets hashBucket (addToBucket igNode (g.buckets hashBucket)) }

/-- A node is changed in place. -/
def modify (g : Graph) (igNode : ℕ) (f : IGNode → IGNode) : Graph :=
  { g with node := Function.update g.node igNode (f (g.node igNode)) }

def setBit (g : Graph) (bit : BitVec 64) (value : Bool) : Graph :=
  { g with matrix := Function.update g.matrix bit value }

def add (g : Graph) (entity : Entity) (ignoreDuplicates : Bool) : Graph :=
  if (g.getIGNodeForEntity entity).isSome ∧ ignoreDuplicates then g
  else
    let igNode := g.numNodes
    let g := g.modify igNode fun _ => ⟨entity, 0, 0, []⟩
    let g := g.addIGNodeToEntityHash igNode
    let g := g.modify igNode fun n => { n with index := BitVec.ofNat 32 g.numNodes }
    { g with numNodes := g.numNodes + 1 }

/-- The bit of two nodes. -/
def pairBit (g : Graph) (igNode1 igNode2 : ℕ) : BitVec 64 :=
  getNodePairToBVIndex (g.node igNode1).index (g.node igNode2).index

def addInterferenceBetween (g : Graph) (igNode1 igNode2 : ℕ) : Graph :=
  let bitNum := g.pairBit igNode1 igNode2
  if igNode1 ≠ igNode2 ∧ ¬ g.matrix bitNum then
    let g := g.setBit bitNum true
    let g := g.modify igNode2 fun n => { n with adjList := igNode1 :: n.adjList }
    let g := g.modify igNode1 fun n => { n with adjList := igNode2 :: n.adjList }
    let g := g.modify igNode2 fun n => { n with degree := n.degree + 1 }
    g.modify igNode1 fun n => { n with degree := n.degree + 1 }
  else g

def removeInterferenceBetween (g : Graph) (igNode1 igNode2 : ℕ) : Graph :=
  let g := g.modify igNode1 fun n => { n with adjList := n.adjList.erase igNode2 }
  let g := g.modify igNode2 fun n => { n with adjList := n.adjList.erase igNode1 }
  let g := g.modify igNode1 fun n => { n with degree := n.degree - 1 }
  let g := g.modify igNode2 fun n => { n with degree := n.degree - 1 }
  g.setBit (g.pairBit igNode1 igNode2) false

/-- One round of the loop of `removeAllInterferences`. -/
def removeFrom (igNode : ℕ) (g : Graph) (cursor : ℕ) : Graph :=
  let g := g.modify cursor fun n => { n with adjList := n.adjList.erase igNode }
  let g := g.modify cursor fun n => { n with degree := n.degree - 1 }
  -- The source takes the bit of the node with itself.
  g.setBit (g.pairBit igNode igNode) false

def removeAllInterferences (g : Graph) (igNode : ℕ) : Graph :=
  let g := (g.node igNode).adjList.foldl (removeFrom igNode) g
  let g := g.modify igNode fun n => { n with degree := 0 }
  g.modify igNode fun n => { n with adjList := [] }

def hasInterference (g : Graph) (igNode1 igNode2 : ℕ) : Bool :=
  g.matrix (g.pairBit igNode1 igNode2)

/-- `hasInterference` of two entities. -/
def entitiesInterfere (g : Graph) (entity1 entity2 : Entity) : Option Bool :=
  (g.getIGNodeForEntity entity1).bind fun igNode1 =>
    (g.getIGNodeForEntity entity2).map fun igNode2 => g.hasInterference igNode1 igNode2

end Graph

section PairIndex

/-! The bit number of a pair, in numbers. -/

theorem highIndexTable_eq (high : ℕ) (h : high < 64) :
    highIndexTable.getD high 0 =
      ((BitVec.ofNat 64 high - 1) * BitVec.ofNat 64 high) >>> 1 := by
  have hall : ∀ high : Fin 64, highIndexTable.getD high.val 0 =
      ((BitVec.ofNat 64 high.val - 1) * BitVec.ofNat 64 high.val) >>> 1 := by decide
  exact hall ⟨high, h⟩

/-- The table holds what the formula computes. -/
theorem orderedPairIndex_eq (low high : BitVec 64) :
    orderedPairIndex low high = (((high - 1) * high) >>> 1) + low := by
  unfold orderedPairIndex
  split
  · next h =>
    rw [highIndexTable_eq _ (by simpa [numPrecomputedHighIndices, BitVec.lt_def] using h),
      BitVec.ofNat_toNat, BitVec.setWidth_eq, BitVec.add_comm]
  · rfl

/-- The number of pairs of smaller indices than `high`, and `low`. -/
def triangular (low high : ℕ) : ℕ := high.choose 2 + low

theorem toNat_orderedPairIndex {low high : BitVec 64} (hhigh : high.toNat < 2 ^ 32)
    (hlow : low.toNat ≤ high.toNat) :
    (orderedPairIndex low high).toNat = triangular low.toNat high.toNat := by
  rw [orderedPairIndex_eq, triangular, Nat.choose_two_right]
  obtain hzero | hpos := Nat.eq_zero_or_pos high.toNat
  · obtain rfl : high = 0#64 := BitVec.eq_of_toNat_eq hzero
    simp
  · have hsub : (high - 1).toNat = high.toNat - 1 := by
      rw [BitVec.toNat_sub, show (1 : BitVec 64).toNat = 1 from rfl]
      omega
    have hmul : (high.toNat - 1) * high.toNat < 2 ^ 64 - 2 ^ 33 := by
      calc (high.toNat - 1) * high.toNat ≤ (2 ^ 32 - 2) * (2 ^ 32 - 1) :=
            Nat.mul_le_mul (by omega) (by omega)
        _ < 2 ^ 64 - 2 ^ 33 := by norm_num
    rw [BitVec.toNat_add, BitVec.toNat_ushiftRight, BitVec.toNat_mul, hsub,
      Nat.shiftRight_eq_div_pow, pow_one, mul_comm high.toNat]
    generalize (high.toNat - 1) * high.toNat = product at hmul ⊢
    omega

/-- The rows of the triangle do not overlap. -/
theorem triangular_injective {low high low' high' : ℕ} (h : low < high) (h' : low' < high')
    (heq : triangular low high = triangular low' high') : low = low' ∧ high = high' := by
  have hrow (n : ℕ) : (n + 1).choose 2 = n.choose 2 + n := by
    rw [Nat.choose_succ_succ' n 1, Nat.choose_one_right, add_comm]
  have hmono {a b : ℕ} (hab : a < b) : a.choose 2 + a ≤ b.choose 2 := by
    rw [← hrow]
    exact Nat.choose_le_choose 2 hab
  simp only [triangular] at heq
  obtain hlt | rfl | hgt := lt_trichotomy high high'
  · have := hmono hlt
    omega
  · omega
  · have := hmono hgt
    omega

/-- The pair of an index with itself stands for that of 0 and the next index. -/
theorem triangular_self (n : ℕ) : triangular n n = triangular 0 (n + 1) := by
  rw [triangular, triangular, Nat.choose_succ_succ' n 1, Nat.choose_one_right, add_zero, add_comm]

theorem toNat_getNodePairToBVIndex (index1 index2 : BitVec 32) :
    (getNodePairToBVIndex index1 index2).toNat =
      triangular (min index1.toNat index2.toNat) (max index1.toNat index2.toNat) := by
  have h1 := index1.isLt
  have h2 := index2.isLt
  have hwide (index : BitVec 32) : (index.setWidth 64).toNat = index.toNat := by
    rw [BitVec.toNat_setWidth]
    have := index.isLt
    omega
  unfold getNodePairToBVIndex
  split
  · next h =>
    rw [BitVec.lt_def] at h
    rw [toNat_orderedPairIndex (by rw [hwide]; omega) (by rw [hwide, hwide]; omega), hwide, hwide,
      min_eq_left h.le, max_eq_right h.le]
  · next h =>
    rw [BitVec.lt_def, not_lt] at h
    rw [toNat_orderedPairIndex (by rw [hwide]; omega) (by rw [hwide, hwide]; omega), hwide, hwide,
      min_eq_right h, max_eq_left h]

/-- Distinct pairs of distinct indices have distinct bits. -/
theorem getNodePairToBVIndex_injective {index1 index2 index1' index2' : BitVec 32}
    (hne : index1 ≠ index2) (hne' : index1' ≠ index2')
    (h : getNodePairToBVIndex index1 index2 = getNodePairToBVIndex index1' index2') :
    index1 = index1' ∧ index2 = index2' ∨ index1 = index2' ∧ index2 = index1' := by
  have hnat := congrArg BitVec.toNat h
  rw [toNat_getNodePairToBVIndex, toNat_getNodePairToBVIndex] at hnat
  have hlt {i j : BitVec 32} (hij : i ≠ j) : min i.toNat j.toNat < max i.toNat j.toNat := by
    have hval : i.toNat ≠ j.toNat := fun heq => hij (BitVec.eq_of_toNat_eq heq)
    omega
  have hpair := triangular_injective (hlt hne) (hlt hne') hnat
  simp only [BitVec.toNat_eq]
  omega

end PairIndex

end OMR.Compiler.InterferenceGraph
