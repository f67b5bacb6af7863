import OMR.Lib.LinearProbing
import OMR.Util.AVLTree

/-!
# `J9HashTable`

The model of `util/hashtable/hashtable.c`. The array `nodes` of a space-optimised table, which
has no `listNodePool`, holds the entries themselves; otherwise it holds the heads of the
buckets, where a tagged head is a tree. A chain is the list of its nodes in the order of the
links, and a node is known by the address of the pool element it is. What the pools and
`mem_allocate_memory` return is an argument, `Allocations`; what a pool frees can be seen
from the buckets alone. `none` is a run without a result: a probe loop that does not end,
or a `NULL` pointer that is followed. The counters are those of tables with fewer than
`2^32` entries.
-/

namespace OMR.Util.Hash

open OMR.Lib OMR.Util.AVL

/-- `primesTable`. -/
def primesTable : List ℕ :=
  [17, 37, 73, 149, 293, 587, 811, 1171, 1693, 2347, 3511, 4691, 9391, 18787, 37573, 75149,
    150299, 300007, 600071, 1200077, 2200103]

/-- `SPACE_OPT_LIMIT`. -/
def spaceOptLimit : ℕ := primesTable.getD 3 0

/-- `hashTableNextSize`; 0 if there is no larger one. -/
def hashTableNextSize (size : ℕ) : ℕ := (primesTable.find? fun prime => prime > size).getD 0

/-- An element of a node pool, with the entry it holds. -/
structure Node (α : Type*) where
  address : ℕ
  data : α
deriving DecidableEq

/-- What the head of a bucket leads to. -/
inductive Bucket (α : Type*) where
  | list (chain : List (Node α))
  | tree (root : AVL.Tree (Node α))

/-- The nodes of a bucket that are list nodes. -/
def Bucket.chain {α : Type*} : Bucket α → List (Node α)
  | .list chain => chain
  | .tree _ => []

/-- The nodes of a bucket that are tree nodes. -/
def Bucket.treeNodes {α : Type*} : Bucket α → List (Node α)
  | .list _ => []
  | .tree root => root.inorder

/-- The array `nodes`: entries, or heads of buckets. -/
inductive Nodes (α : Type*) where
  | slots (slot : ℕ → Option α)
  | buckets (head : ℕ → Bucket α)

/-- A pointer to an entry: into the array, to a list node, or `AVL_NODE_TO_DATA` of a tree
node. -/
inductive Pointer where
  | slot (index : ℕ)
  | listNode (address : ℕ)
  | treeNode (address : ℕ)
deriving DecidableEq, Repr

/-- The functions of a table. -/
structure HashFunctions (α : Type*) where
  hashFn : α → ℕ
  hashEqualFn : α → α → Bool
  comparatorFn : α → α → ℤ

/-- `comparatorToEqualFn`, the `hashEqualFn` of a collision-resilient table. -/
def comparatorToEqualFn {α : Type*} (comparatorFn : α → α → ℤ) (leftKey rightKey : α) : Bool :=
  comparatorFn rightKey leftKey = 0

/-- `J9HashTable`. The flags are those that `hashTableCanGrow` and `hashTableCanRehash` read
and `J9HASH_TABLE_COLLISION_RESILIENT`. -/
structure J9HashTable (α : Type*) where
  tableSize : ℕ
  numberOfNodes : ℕ
  numberOfTreeNodes : ℕ
  listToTreeThreshold : ℕ
  canGrow : Bool
  canRehash : Bool
  collisionResilient : Bool
  nodes : Nodes α

/-- What the allocations during one `hashTableAdd` return. The element that a node is copied to
is known by the address of that node, or by the slot it was in. -/
structure Allocations (α : Type*) where
  /-- `mem_allocate_memory` of the larger array returns memory. -/
  nodes : Bool
  /-- `pool_new` returns a pool. It has room for `tableSize` elements, so that
  `pool_ensureCapacity` has nothing to do and `pool_newElement` an element to give. -/
  listNodePool : Bool
  slotCopy : ℕ → ℕ
  /-- `pool_ensureCapacity` of the list node pool gets its puddles. -/
  listCapacity : Bool
  /-- The walks over the two node pools. -/
  listWalk : List (Node α)
  treeWalk : List (Node α)
  /-- `pool_newElement` of the list node pool for a tree node. The capacity counts the holes of
  a puddle as well, so that it may need another puddle. -/
  listCopy : ℕ → Option ℕ
  /-- `pool_newElement` of the tree pool for a bucket returns a tree. -/
  tree : ℕ → Bool
  /-- `pool_ensureCapacity` of the tree node pool for a bucket gets its puddles. -/
  treeCapacity : ℕ → Bool
  treeCopy : ℕ → ℕ
  /-- `pool_newElement` for the new entry, as a list node or as a tree node. -/
  listNode : Option ℕ
  treeNode : Option ℕ

variable {α : Type*}

namespace HashFunctions

variable (fns : HashFunctions α)

/-- The comparator on tree nodes. -/
def compareNodes (a b : Node α) : ℤ := fns.comparatorFn a.data b.data

/-- The bucket or slot that an entry belongs to. -/
def home (tableSize : ℕ) (entry : α) : ℕ := fns.hashFn entry % tableSize

/-- `hashTableFindNodeSpaceOpt`: the slot that has the entry or is empty. -/
def hashTableFindNodeSpaceOpt (tableSize : ℕ) (slot : ℕ → Option α) (entry : α) : Option ℕ :=
  LinearProbing.walk tableSize (fun c => c.all fun x => fns.hashEqualFn x entry) slot tableSize
    (fns.home tableSize entry)

/-- `hashTableFindNodeInList`. -/
def hashTableFindNodeInList (chain : List (Node α)) (entry : α) : Option (Node α) :=
  chain.find? fun node => fns.hashEqualFn node.data entry

/-- `hashTableFindNodeInTree`. -/
def hashTableFindNodeInTree (root : AVL.Tree (Node α)) (entry : α) : Option (Node α) :=
  avlSearch (fun entry node => fns.comparatorFn entry node.data) root entry

/-- A node becomes the first one of the chain of its bucket. -/
def pushNode (tableSize : ℕ) (head : ℕ → Bucket α) (node : Node α) : ℕ → Bucket α :=
  let hash := fns.home tableSize node.data
  Function.update head hash (.list (node :: (head hash).chain))

/-- The buckets of a list of nodes, each pushed onto the chain of its bucket. -/
def pushNodes (tableSize : ℕ) (nodes : List (Node α)) : ℕ → Bucket α :=
  nodes.foldl (fns.pushNode tableSize) fun _ => .list []

/-- The entries of an array of slots go one after the other into a larger one. -/
def reinsert (newSize : ℕ) : List α → (ℕ → Option α) → Option (ℕ → Option α)
  | [], newNodes => some newNodes
  | x :: rest, newNodes =>
    match LinearProbing.walk newSize (fun c => c = none) newNodes newSize (fns.home newSize x) with
    | none => none
    | some index => reinsert newSize rest (Function.update newNodes index (some x))

end HashFunctions

namespace J9HashTable

variable (t : J9HashTable α) (fns : HashFunctions α)

/-- `hashTableFind`. -/
def hashTableFind (entry : α) : Option (Option Pointer) :=
  match t.nodes with
  | .slots slot =>
    (fns.hashTableFindNodeSpaceOpt t.tableSize slot entry).map fun node =>
      (slot node).map fun _ => .slot node
  | .buckets head =>
    match head (fns.home t.tableSize entry) with
    | .list chain =>
      some ((fns.hashTableFindNodeInList chain entry).map fun node => .listNode node.address)
    | .tree root =>
      some ((fns.hashTableFindNodeInTree root entry).map fun node => .treeNode node.address)

/-! ### Growing -/

variable [DecidableEq α]

/-- `listToTree` for the chain of a bucket: the tree, if there is one to be had. Without a
`treePool` there is none. A `pool_ensureCapacity` that does not get its puddles follows a
`NULL` pointer. -/
def listToTree (alloc : Allocations α) (bucket : ℕ) (chain : List (Node α)) :
    Option (Option (AVL.Tree (Node α))) :=
  if t.canRehash ∧ t.collisionResilient ∧ alloc.tree bucket then
    if alloc.treeCapacity bucket then
      some (some (chain.foldl (fun tree nodeToCopy =>
        (avlInsert fns.compareNodes tree
          ⟨alloc.treeCopy nodeToCopy.address, nodeToCopy.data⟩).1) .nil))
    else none
  else some none

/-- The last loop of `rebuildFromPools`: chains that are too long become trees. -/
def buildTrees (alloc : Allocations α) :
    List ℕ → (ℕ → Bucket α) → (numberOfTreeNodes : ℕ) → Option ((ℕ → Bucket α) × ℕ)
  | [], head, numberOfTreeNodes => some (head, numberOfTreeNodes)
  | i :: rest, head, numberOfTreeNodes =>
    let chain := (head i).chain
    if chain.length > t.listToTreeThreshold then
      match t.listToTree fns alloc i chain with
      | none => none
      | some none => buildTrees alloc rest head numberOfTreeNodes
      | some (some root) =>
        buildTrees alloc rest (Function.update head i (.tree root))
          (numberOfTreeNodes + chain.length)
    else buildTrees alloc rest head numberOfTreeNodes

/-- `rebuildFromPools`: the nodes come into the new buckets in the order in which the pools
are walked, those of trees as list nodes. -/
def rebuildFromPools (newSize : ℕ) (alloc : Allocations α) : Option (J9HashTable α) :=
  match alloc.treeWalk.mapM fun treeNode =>
    (alloc.listCopy treeNode.address).map fun address => (⟨address, treeNode.data⟩ : Node α) with
  | none => none
  | some copies =>
    (t.buildTrees fns alloc (List.range newSize)
      (fns.pushNodes newSize (alloc.listWalk ++ copies)) 0).map fun (head, numberOfTreeNodes) =>
        { t with
          tableSize := newSize
          numberOfTreeNodes := numberOfTreeNodes
          nodes := .buckets head }

/-- `collisionResilientHashTableGrow`: the table, and whether it has grown. -/
def collisionResilientHashTableGrow (newSize : ℕ) (alloc : Allocations α) :
    Option (J9HashTable α × Bool) :=
  if alloc.listCapacity then
    if alloc.nodes then (t.rebuildFromPools fns newSize alloc).map fun t => (t, true)
    else some (t, false)
  else none

/-- The list nodes, bucket after bucket. -/
def listNodes (head : ℕ → Bucket α) : List (Node α) :=
  (List.range t.tableSize).flatMap fun i => (head i).chain

/-- `hashTableGrowListNodes`. -/
def hashTableGrowListNodes (head : ℕ → Bucket α) (newSize : ℕ) (alloc : Allocations α) :
    J9HashTable α × Bool :=
  if alloc.nodes then
    ({ t with
      tableSize := newSize
      nodes := .buckets (fns.pushNodes newSize (t.listNodes head)) }, true)
  else (t, false)

/-- `hashTableGrowSpaceOpt`. -/
def hashTableGrowSpaceOpt (slot : ℕ → Option α) (newSize : ℕ) (alloc : Allocations α) :
    Option (J9HashTable α × Bool) :=
  if alloc.nodes = false then some (t, false)
  else if newSize > spaceOptLimit then
    -- the table begins to use a pool
    if alloc.listNodePool then
      let copies := (List.range t.tableSize).filterMap fun i =>
        (slot i).map fun entry => (⟨alloc.slotCopy i, entry⟩ : Node α)
      some ({ t with
        tableSize := newSize
        nodes := .buckets (fns.pushNodes newSize copies) }, true)
    else some (t, false)
  else
    (fns.reinsert newSize (LinearProbing.stored t.tableSize slot) fun _ => none).map
      fun newNodes => ({ t with tableSize := newSize, nodes := .slots newNodes }, true)

/-- `hashTableGrow`: the table, and whether it has grown. -/
def hashTableGrow (alloc : Allocations α) : Option (J9HashTable α × Bool) :=
  let newSize := hashTableNextSize t.tableSize
  if newSize = 0 then some (t, false)
  else
    match t.nodes with
    | .slots slot => t.hashTableGrowSpaceOpt fns slot newSize alloc
    | .buckets head =>
      if t.collisionResilient then t.collisionResilientHashTableGrow fns newSize alloc
      else some (t.hashTableGrowListNodes fns head newSize alloc)

/-! ### Adding -/

/-- `hashTableAddNodeSpaceOpt`. -/
def hashTableAddNodeSpaceOpt (slot : ℕ → Option α) (entry : α) :
    Option (J9HashTable α × Option Pointer) :=
  (fns.hashTableFindNodeSpaceOpt t.tableSize slot entry).map fun node =>
    if slot node = none then
      ({ t with
        nodes := .slots (Function.update slot node (some entry))
        numberOfNodes := t.numberOfNodes + 1 }, some (.slot node))
    else (t, some (.slot node))

/-- `hashTableAddNodeInTree`. -/
def hashTableAddNodeInTree (head : ℕ → Bucket α) (bucket : ℕ) (root : AVL.Tree (Node α)) (entry : α)
    (alloc : Allocations α) : J9HashTable α × Option Pointer :=
  match alloc.treeNode with
  | none => (t, none)
  | some address =>
    let newNode : Node α := ⟨address, entry⟩
    let inserted := avlInsert fns.compareNodes root newNode
    let head := Function.update head bucket (.tree inserted.1)
    if inserted.2 ≠ newNode then
      ({ t with nodes := .buckets head }, some (.treeNode inserted.2.address))
    else
      ({ t with
        nodes := .buckets head
        numberOfNodes := t.numberOfNodes + 1
        numberOfTreeNodes := t.numberOfTreeNodes + 1 }, some (.treeNode address))

/-- `hashTableAddNodeInList`. -/
def hashTableAddNodeInList (head : ℕ → Bucket α) (bucket : ℕ) (chain : List (Node α)) (entry : α)
    (alloc : Allocations α) : Option (J9HashTable α × Option Pointer) :=
  match fns.hashTableFindNodeInList chain entry with
  | some node => some (t, some (.listNode node.address))
  | none =>
    let converted := if chain.length > t.listToTreeThreshold then
      t.listToTree fns alloc bucket chain else some none
    match converted with
    | none => none
    | some (some root) =>
      let head := Function.update head bucket (.tree root)
      some (({ t with
        nodes := .buckets head
        numberOfTreeNodes := t.numberOfTreeNodes + chain.length } : J9HashTable α
        ).hashTableAddNodeInTree fns head bucket root entry alloc)
    | some none =>
      match alloc.listNode with
      | none => some (t, none)
      | some address =>
        some ({ t with
          nodes := .buckets (Function.update head bucket (.list (chain ++ [⟨address, entry⟩])))
          numberOfNodes := t.numberOfNodes + 1 }, some (.listNode address))

/-- The last part of `hashTableAdd`. -/
def addNode (entry : α) (alloc : Allocations α) : Option (J9HashTable α × Option Pointer) :=
  match t.nodes with
  | .slots slot => t.hashTableAddNodeSpaceOpt fns slot entry
  | .buckets head =>
    let bucket := fns.home t.tableSize entry
    match head bucket with
    | .list chain => t.hashTableAddNodeInList fns head bucket chain entry alloc
    | .tree root => some (t.hashTableAddNodeInTree fns head bucket root entry alloc)

/-- The table is space-optimised. -/
def isSpaceOpt : Bool :=
  match t.nodes with
  | .slots _ => true
  | .buckets _ => false

/-- `hashTableAdd`: the table and the pointer it returns. -/
def hashTableAdd (entry : α) (alloc : Allocations α) : Option (J9HashTable α × Option Pointer) :=
  if t.numberOfNodes + 1 = t.tableSize then
    if t.canGrow then
      match if t.canRehash then t.hashTableGrow fns alloc else some (t, false) with
      | none => none
      | some (t, grown) =>
        if t.isSpaceOpt ∧ grown = false then some (t, none) else t.addNode fns entry alloc
    else some (t, none)
  else t.addNode fns entry alloc

/-! ### Removing -/

/-- `hashTableRemove`: the table, and the pointer to the entry that was removed; there is one
where the result is 0. The key is no node of its own, only its data is looked at. -/
def hashTableRemove (entry : α) : Option (J9HashTable α × Option Pointer) :=
  match t.nodes with
  | .slots slot =>
    match fns.hashTableFindNodeSpaceOpt t.tableSize slot entry with
    | none => none
    | some node =>
      if slot node = none then some (t, none)
      else
        (LinearProbing.closeGap t.tableSize (fns.home t.tableSize) t.tableSize
          (LinearProbing.next t.tableSize node) (Function.update slot node none)).map fun slot =>
            ({ t with nodes := .slots slot, numberOfNodes := t.numberOfNodes - 1 },
              some (.slot node))
  | .buckets head =>
    let bucket := fns.home t.tableSize entry
    match head bucket with
    | .list chain =>
      match fns.hashTableFindNodeInList chain entry with
      | none => some (t, none)
      | some node =>
        some ({ t with
          nodes := .buckets (Function.update head bucket
            (.list (chain.eraseP fun node => fns.hashEqualFn node.data entry)))
          numberOfNodes := t.numberOfNodes - 1 }, some (.listNode node.address))
    | .tree root =>
      let deleted := avlDelete fns.compareNodes root ⟨0, entry⟩
      match deleted.2 with
      | some (.node _ _ removedNode _) =>
        some ({ t with
          nodes := .buckets (Function.update head bucket (.tree deleted.1))
          numberOfNodes := t.numberOfNodes - 1
          numberOfTreeNodes := t.numberOfTreeNodes - 1 }, some (.treeNode removedNode.address))
      | _ => some (t, none)

end J9HashTable

end OMR.Util.Hash
