import Viy.Deobf.Ir

/-!
# Dispatch chains

`find_dispatch_candidates` looks for chains of blocks that compare one register with a constant and
branch on the zero flag: the compare-and-branch trees of a flattened dispatcher. Every block that
ends in such a comparison is a node; a chain follows the edges on which the comparison fails.
-/

namespace Viy.Deobf

open Wire

/-! ## Nodes -/

structure DispatchNode where
  block : UInt64 := badAddress
  site : UInt64 := badAddress
  reg : ℤ := noRegister
  regName : Bytes := []
  width : UInt8 := 0
  selector : UInt64 := 0
  caseTarget : UInt64 := badAddress
  next : UInt64 := badAddress

def writesDestinationValue (insn : Instruction) : Bool :=
  if insn.destinationRegister = noRegister then false
  else
    match insn.kind with
    | .popRegister | .readStackTop | .loadImmediate | .loadAddress | .loadReadOnlyConstant
    | .copyRegister | .addImmediate | .subImmediate | .xorImmediate | .andImmediate
    | .orImmediate | .shiftLeftImmediate | .replaceHigh16 | .other => true
    | _ => false

/-- The backward search for the comparison: the instructions it passes, the comparison, and the
instructions before it, all from the back. -/
def searchCompare :
    List Instruction → Option (List Instruction × Instruction × List Instruction)
  | [] => none
  | insn :: rest =>
    if insn.kind = .compareImmediate then some ([], insn, rest)
    else if insn.flagEffect = .unknownWrite then none
    else (searchCompare rest).map fun (passed, compare, before) => (insn :: passed, compare, before)

/-- The node of a comparison and a branch. -/
def makeNode (block : Block) (compare branch : Instruction) : DispatchNode where
  block := block.start
  site := branch.address
  reg := compare.destinationRegister
  regName := compare.destinationName
  width := compare.valueWidth
  selector := truncateWidth compare.immediate compare.valueWidth
  caseTarget := if branch.condition = .zero then branch.target else branch.endAddress
  next := if branch.condition = .zero then branch.endAddress else branch.target

def parseDispatchNode (block : Block) : Option DispatchNode :=
  match block.instructions.reverse with
  | branch :: insn :: rest =>
    if branch.kind ≠ .conditionalBranch ∨ branch.target = badAddress ∨
        (branch.condition ≠ .zero ∧ branch.condition ≠ .notZero) then none
    else if branch.endAddress = badAddress then none
    else
      match searchCompare (insn :: rest) with
      | none => none
      | some (passed, compare, before) =>
        if compare.destinationRegister = noRegister ∨ compare.registerIsLeftOperand = false ∨
            compare.valueWidth = 0 ∨ compare.valueWidth > 8 then none
        else if (before.reverse ++ passed.reverse).any (fun insn =>
            insn.destinationRegister = compare.destinationRegister && writesDestinationValue insn)
          then none
        else if branch.target ∉ block.successors ∨ branch.endAddress ∉ block.successors then none
        else some (makeNode block compare branch)
  | _ => none

def selectorEntropy (nodes : List DispatchNode) : UInt8 :=
  let total := (nodes.map fun node => node.width.toNat * 8).sum
  let ones := (nodes.map fun node =>
    ((List.range (node.width.toNat * 8)).filter node.selector.toNat.testBit).length).sum
  if total = 0 then 0 else .ofNat (ones * 100 / total)

/-! ## Chains -/

abbrev NodeMap := Cxx.Map Cxx.Comparator.u64 DispatchNode

def emplaceNode (nodes : NodeMap) (block : Block) : NodeMap :=
  match parseDispatchNode block with
  | some node => nodes.emplace node.block node
  | none => nodes

def dispatchNodes (blocks : List Block) : NodeMap := blocks.foldl emplaceNode .empty

def compatibleNextTargets (nodes : NodeMap) : List UInt64 :=
  nodes.entries.filterMap fun item =>
    match nodes.find item.2.next with
    | some next =>
      if next.reg = item.2.reg ∧ next.width = item.2.width then some item.2.next else none
    | none => none

def dispatchStarts (nodes : NodeMap) : List UInt64 :=
  let starts := nodes.keys.filter fun key => key ∉ compatibleNextTargets nodes
  if starts = [] then nodes.keys.take 1 else starts

structure Chain where
  nodes : List DispatchNode := []
  visited : List UInt64 := []
  cursor : UInt64
  stateReg : ℤ := noRegister

/-- The state register once a node is found: the first node decides. -/
def Chain.register (c : Chain) (found : DispatchNode) : ℤ :=
  if c.stateReg = noRegister then found.reg else c.stateReg

/-- The node is about another register or width. -/
def Chain.Differs (c : Chain) (found : DispatchNode) : Prop :=
  found.reg ≠ c.register found ∨ ∃ front ∈ c.nodes.head?, found.width ≠ front.width

instance (c : Chain) (found : DispatchNode) : Decidable (c.Differs found) :=
  inferInstanceAs (Decidable (_ ∨ _))

/-- The walk along failing comparisons, for at most `room` more nodes. -/
def Chain.walk (nodes : NodeMap) : ℕ → Chain → Chain
  | 0, c => c
  | room + 1, c =>
    match nodes.find c.cursor with
    | none => c
    | some found =>
      if c.cursor ∈ c.visited then c
      else if c.Differs found then
        { c with visited := c.cursor :: c.visited, stateReg := c.register found }
      else
        Chain.walk nodes room
          { nodes := c.nodes ++ [found]
            visited := c.cursor :: c.visited
            cursor := found.next
            stateReg := c.register found }

/-- The case targets by selector, unless a selector has two. -/
def selectorTargets : List DispatchNode → Cxx.Map Cxx.Comparator.u64 UInt64 →
    Option (Cxx.Map Cxx.Comparator.u64 UInt64)
  | [], targets => some targets
  | node :: nodes, targets =>
    if (targets.find node.selector).any (· != node.caseTarget) then none
    else selectorTargets nodes (targets.set node.selector node.caseTarget)

/-! ## Candidates -/

structure DispatchCaseCandidate where
  selector : UInt64 := 0
  target : UInt64 := badAddress

structure DispatchCandidate where
  entryBlock : UInt64 := badAddress
  site : UInt64 := badAddress
  stateRegister : ℤ := noRegister
  stateRegisterName : Bytes := []
  stateWidth : UInt8 := 0
  cases : List DispatchCaseCandidate := []
  defaultTarget : Option UInt64 := none
  comparisonSites : List UInt64 := []
  loopBacked : Bool := false
  selectorOneBitPercent : UInt8 := 0

/-- The candidate of a chain whose first node is `front`. -/
def makeCandidate (blocks : List Block) (start : UInt64) (chain : Chain) (front : DispatchNode)
    (targets : Cxx.Map Cxx.Comparator.u64 UInt64) : DispatchCandidate where
  entryBlock := start
  site := front.site
  stateRegister := chain.stateReg
  stateRegisterName := front.regName
  stateWidth := front.width
  cases := targets.entries.map fun item => ⟨item.1, item.2⟩
  defaultTarget :=
    if chain.cursor ∉ chain.visited ∧ chain.cursor ≠ badAddress then some chain.cursor else none
  comparisonSites := chain.nodes.map (·.site)
  loopBacked := blocks.any fun block =>
    decide (block.start ∉ chain.visited) && decide (start ∈ block.successors)
  selectorOneBitPercent := selectorEntropy chain.nodes

/-- The chain from a start. -/
def dispatchChain (nodes : NodeMap) (limits : ClassifierLimits) (start : UInt64) : Chain :=
  Chain.walk nodes limits.maximumDispatchCases { cursor := start }

/-- The candidate from a start, if any; `emittedSites` are the ones of earlier starts. -/
def candidateFrom (blocks : List Block) (nodes : NodeMap) (limits : ClassifierLimits)
    (emittedSites : List UInt64) (start : UInt64) : Option DispatchCandidate :=
  let chain := dispatchChain nodes limits start
  match chain.nodes with
  | [] => none
  | front :: rest =>
    if chain.nodes.length < limits.minimumDispatchCases ∨ front.site ∈ emittedSites then none
    else
      match selectorTargets (front :: rest) .empty with
      | none => none
      | some targets =>
        if targets.entries.length < limits.minimumDispatchCases then none
        else some (makeCandidate blocks start chain front targets)

/-- The sites emitted once a start is done with. -/
def emittedAfter (nodes : NodeMap) (limits : ClassifierLimits) (emittedSites : List UInt64)
    (start : UInt64) : List UInt64 :=
  let chain := dispatchChain nodes limits start
  match chain.nodes with
  | [] => emittedSites
  | front :: _ =>
    if chain.nodes.length < limits.minimumDispatchCases then emittedSites
    else front.site :: emittedSites

def candidatesFrom (blocks : List Block) (nodes : NodeMap) (limits : ClassifierLimits) :
    List UInt64 → List UInt64 → List DispatchCandidate
  | [], _ => []
  | start :: starts, emittedSites =>
    (candidateFrom blocks nodes limits emittedSites start).toList ++
      candidatesFrom blocks nodes limits starts (emittedAfter nodes limits emittedSites start)

def findDispatchCandidates (blocks : List Block) (limits : ClassifierLimits) :
    List DispatchCandidate :=
  if limits.minimumDispatchCases = 0 ∨
      limits.maximumDispatchCases < limits.minimumDispatchCases then []
  else
    let nodes := dispatchNodes blocks
    Cxx.sort (fun a b => a.site < b.site)
      (candidatesFrom blocks nodes limits (dispatchStarts nodes) [])

end Viy.Deobf
