import OMR.Compiler.InterferenceGraphRuns
import OMR.Lib.Peeling

/-!
# Colouring an interference graph

`simplify` pushes the nodes in an order in which each has few neighbours left, and chooses a
spill candidate where there is none. `select` pops them and gives each the first colour that
none of its neighbours has.
-/

namespace OMR.Compiler.InterferenceGraph

open OMR.Lib

/-- `IGNodeColour`, an `int32_t`. -/
abbrev IGNodeColour := BitVec 32

/-- `UNCOLOURED`. -/
def uncoloured : IGNodeColour := -1#32

/-- What ends a colouring without an answer. -/
inductive Fault where
  | nullNode
  | workingDegreeBelowZero
  | outOfFuel
  deriving DecidableEq

/-- A graph with what its nodes hold for colouring. -/
structure Colouring where
  graph : Graph
  workingDegree : ℕ → ℕ
  isRemovedFromIG : ℕ → Bool
  colour : ℕ → IGNodeColour
  /-- The top comes first. -/
  nodeStack : List ℕ
  numColours : IGNodeColour
  numberOfColoursUsedToColour : IGNodeColour

namespace Colouring

def initialized : Colouring :=
  ⟨.initialized, fun _ => 0, fun _ => false, fun _ => uncoloured, [], 0, 0⟩

def setWorkingDegree (c : Colouring) (igNode degree : ℕ) : Colouring :=
  { c with workingDegree := Function.update c.workingDegree igNode degree }

def setIsRemovedFromIG (c : Colouring) (igNode : ℕ) (removed : Bool) : Colouring :=
  { c with isRemovedFromIG := Function.update c.isRemovedFromIG igNode removed }

def setColour (c : Colouring) (igNode : ℕ) (colour : IGNodeColour) : Colouring :=
  { c with colour := Function.update c.colour igNode colour }

/-- A node is constructed uncoloured. -/
def add (c : Colouring) (entity : Entity) (ignoreDuplicates : Bool) : Colouring :=
  if (c.graph.getIGNodeForEntity entity).isSome ∧ ignoreDuplicates then c
  else
    let igNode := c.graph.numNodes
    let c := { c with graph := c.graph.add entity ignoreDuplicates }
    ((c.setWorkingDegree igNode 0).setIsRemovedFromIG igNode false).setColour igNode uncoloured

/-- The interference of two entities. -/
def addInterferenceBetween (c : Colouring) (entity1 entity2 : Entity) : Option Colouring :=
  (c.graph.getIGNodeForEntity entity1).bind fun igNode1 =>
    (c.graph.getIGNodeForEntity entity2).map fun igNode2 =>
      { c with graph := c.graph.addInterferenceBetween igNode1 igNode2 }

def decWorkingDegree (c : Colouring) (igNode : ℕ) : Except Fault Colouring :=
  if c.workingDegree igNode = 0 then .error .workingDegreeBelowZero
  else .ok (c.setWorkingDegree igNode (c.workingDegree igNode - 1))

/-- One round of the loop of `decWorkingDegreeOfNeighbours`. -/
def decUnlessRemoved (c : Colouring) (cursor : ℕ) : Except Fault Colouring :=
  if c.isRemovedFromIG cursor then .ok c else c.decWorkingDegree cursor

def decWorkingDegreeOfNeighbours (c : Colouring) (igNode : ℕ) : Except Fault Colouring :=
  ((c.graph.node igNode).adjList.foldlM decUnlessRemoved c).map fun c =>
    c.setWorkingDegree igNode 0

def virtualRemoveNodeFromIG (c : Colouring) (igNode : ℕ) : Except Fault Colouring :=
  (c.decWorkingDegreeOfNeighbours igNode).map fun c =>
    (c.setIsRemovedFromIG igNode true).setWorkingDegree igNode 0

def push (c : Colouring) (igNode : ℕ) : Colouring := { c with nodeStack := igNode :: c.nodeStack }

/-- A node leaves the graph and the working set, a bit vector given by its bits. -/
def removeAndPush (state : Colouring × List ℕ) (igNode : ℕ) :
    Except Fault (Colouring × List ℕ) :=
  (state.1.virtualRemoveNodeFromIG igNode).map fun c =>
    (c.push igNode, state.2.erase (c.graph.node igNode).index.toNat)

/-- `colourableDegreeSet` of `partitionNodesIntoDegreeSets`. -/
def colourableDegreeSet (c : Colouring) (workingSet : List ℕ) : List ℕ :=
  workingSet.filter fun i => c.workingDegree i < c.numColours.toNat

/-- `notColourableDegreeSet` of `partitionNodesIntoDegreeSets`. -/
def notColourableDegreeSet (c : Colouring) (workingSet : List ℕ) : List ℕ :=
  workingSet.filter fun i => ¬ c.workingDegree i < c.numColours.toNat

/-- One round of the search for a spill candidate. The degree of the node is unsigned, and so
is the comparison. -/
def betterSpillNode (c : Colouring) (best : BitVec 32 × Option ℕ) (igNode : ℕ) :
    BitVec 32 × Option ℕ :=
  let degree := BitVec.ofNat 32 (c.graph.node igNode).degree
  if degree > best.1 then (degree, some igNode) else best

/-- `bestSpillNode`, with `degree` starting as -1. -/
def bestSpillNode (c : Colouring) (notColourable : List ℕ) : Option ℕ :=
  (notColourable.foldl c.betterSpillNode (-1#32, none)).2

/-- One round of the main loop of `simplify`. -/
def simplifyRound (c : Colouring) (workingSet : List ℕ) : Except Fault (Colouring × List ℕ) :=
  let colourable := c.colourableDegreeSet workingSet
  if colourable ≠ [] then colourable.foldlM removeAndPush (c, workingSet)
  else
    match c.bestSpillNode (c.notColourableDegreeSet workingSet) with
    | none => .error .nullNode
    | some igNode => removeAndPush (c, workingSet) igNode

/-- The main loop of `simplify`. -/
def simplifyLoop : ℕ → Colouring × List ℕ → Except Fault Colouring
  | 0, _ => .error .outOfFuel
  | fuel + 1, (c, workingSet) =>
    if workingSet = [] then .ok c
    else (c.simplifyRound workingSet).bind (simplifyLoop fuel)

/-- One round of the loop at the start of `simplify`. -/
def resetNode (c : Colouring) (i : ℕ) : Colouring :=
  ((c.setWorkingDegree i (c.graph.node i).degree).setIsRemovedFromIG i false).setColour i
    uncoloured

/-- Where it returns, it returns true. Every round of its loop removes a node. -/
def simplify (c : Colouring) : Except Fault Colouring :=
  if c.graph.numNodes = 0 then .ok c
  else
    simplifyLoop (c.graph.numNodes + 1)
      ((List.range c.graph.numNodes).foldl resetNode c, List.range c.graph.numNodes)

/-- One round of the loop over the neighbours in `select`. -/
def clearColour (c : Colouring) (available : List ℕ) (adjCursor : ℕ) : List ℕ :=
  if c.colour adjCursor ≠ uncoloured then available.erase (c.colour adjCursor).toNat
  else available

def availableColours (c : Colouring) (igNode : ℕ) : List ℕ :=
  (c.graph.node igNode).adjList.foldl c.clearColour (List.range c.numColours.toNat)

/-- The loop of `select`, over what is on the stack. -/
def selectLoop : List ℕ → Finset ℕ → Colouring → Bool × Colouring
  | [], assignedColours, c =>
    (true, { c with numberOfColoursUsedToColour := BitVec.ofNat 32 assignedColours.card })
  | igNode :: nodeStack, assignedColours, c =>
    let c := { c with nodeStack := nodeStack }
    match (c.availableColours igNode).head? with
    | none => (false, c)
    | some colour =>
      selectLoop nodeStack (insert colour assignedColours)
        (c.setColour igNode (BitVec.ofNat 32 colour))

def select (c : Colouring) : Bool × Colouring :=
  selectLoop c.nodeStack ∅ { c with numberOfColoursUsedToColour := 0 }

def doColouring (c : Colouring) (numColours : IGNodeColour) : Except Fault (Bool × Colouring) :=
  ({ c with numColours := numColours } : Colouring).simplify.map select

end Colouring

/-- What a graph can be asked. -/
inductive ColouringOp where
  | add (entity : Entity) (ignoreDuplicates : Bool)
  | addInterferenceBetween (entity1 entity2 : Entity)
  | doColouring (numColours : IGNodeColour)

namespace Colouring

/-- A run ends with a fault, but goes on after a colouring that has failed. -/
def exec (c : Colouring) : ColouringOp → Option Colouring
  | .add entity ignoreDuplicates => some (c.add entity ignoreDuplicates)
  | .addInterferenceBetween entity1 entity2 => c.addInterferenceBetween entity1 entity2
  | .doColouring numColours => (c.doColouring numColours).toOption.map Prod.snd

/-- Entities are added once, up to what a 32-bit index can number, and interfere once added.
There is a colour at least. -/
def Permitted (c : Colouring) : ColouringOp → Prop
  | .add entity _ => entity ≠ 0 ∧ ¬ c.graph.Contains entity ∧ c.graph.numNodes + 1 < 2 ^ 32
  | .addInterferenceBetween entity1 entity2 => c.graph.Contains entity1 ∧ c.graph.Contains entity2
  | .doColouring numColours => 1 ≤ numColours.toInt

instance (c : Colouring) : ∀ op, Decidable (Permitted c op)
  | .add .. | .addInterferenceBetween .. | .doColouring _ => by unfold Permitted; infer_instance

/-- The numbers of the neighbours of a node. -/
def neighbours (c : Colouring) (k : ℕ) : List ℕ := (c.graph.node k).adjList

/-- Repeatedly deleting nodes with fewer neighbours left than there are colours can empty the
graph. -/
def CanBeEmptied (c : Colouring) (numColours : IGNodeColour) : Prop :=
  Emptied c.neighbours numColours.toNat (Finset.range c.graph.numNodes)

/-- `simplify` returns, with no fault, and has pushed every node once. -/
def Simplifies (c : Colouring) : Prop :=
  ∃ c' pushed, c.simplify = .ok c' ∧ c'.nodeStack = pushed ++ c.nodeStack ∧
    pushed.Perm (List.range c.graph.numNodes)

/-- Every node has one of the colours, interfering nodes have different ones, and the number of
colours is that of the colours in use. -/
structure ProperlyColoured (c : Colouring) (numColours : IGNodeColour) : Prop where
  coloured : ∀ k < c.graph.numNodes, 0 ≤ (c.colour k).toInt ∧
    (c.colour k).toInt < numColours.toInt
  proper : ∀ k < c.graph.numNodes, ∀ l < c.graph.numNodes, k ≠ l →
    c.graph.hasInterference k l = true → c.colour k ≠ c.colour l
  used_eq : c.numberOfColoursUsedToColour.toInt =
    ((Finset.range c.graph.numNodes).image c.colour).card

end Colouring

end OMR.Compiler.InterferenceGraph
