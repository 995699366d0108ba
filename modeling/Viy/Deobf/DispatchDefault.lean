import Viy.Deobf.DispatchChain

/-!
# The default target and the loop edge

Behind the last node of a chain, `find_dispatch_candidates` reads the default target and the loop
edge off the set of visited blocks. The walk marks a block as visited before it looks at its
register and width. A node that it then rejects is no part of the chain, but it counts as visited:
it is not reported as the default target, and its edge to the entry is not seen.
-/

namespace Viy.Deobf

/-! ## How a walk ends -/

/-- The starts of the blocks of a chain. -/
def chainStarts (chain : List DispatchNode) : List UInt64 := chain.map (·.block)

/-- The walk ends at its limit, outside the nodes or in a circle, or it rejects a node. -/
inductive Chain.Ended (nodes : NodeMap) (limit : ℕ) (w : Chain) : Prop
  | stopped (hvisited : w.visited = (chainStarts w.nodes).reverse)
      (hwhy : w.nodes.length = limit ∨ nodes.find w.cursor = none ∨ w.cursor ∈ chainStarts w.nodes)
  | rejected (hvisited : w.visited = w.cursor :: (chainStarts w.nodes).reverse)
      (hnew : w.cursor ∉ chainStarts w.nodes) (hroom : w.nodes.length < limit)
      (hfound : (nodes.find w.cursor).isSome = true)

theorem Chain.ended_walk {nodes : NodeMap} {limit : ℕ}
    (hblock : ∀ a node, nodes.find a = some node → node.block = a) (room : ℕ) : ∀ {c : Chain},
      c.visited = (chainStarts c.nodes).reverse → c.nodes.length + room = limit →
        (Chain.walk nodes room c).Ended nodes limit := by
  induction room with
  | zero =>
    intro c hvisited hlimit
    exact .stopped hvisited (Or.inl hlimit)
  | succ room ih =>
    intro c hvisited hlimit
    unfold Chain.walk
    cases hfound : nodes.find c.cursor with
    | none => exact .stopped hvisited (Or.inr (Or.inl hfound))
    | some found =>
      have hmem : c.cursor ∈ c.visited ↔ c.cursor ∈ chainStarts c.nodes := by
        rw [hvisited, List.mem_reverse]
      show Chain.Ended nodes limit (if c.cursor ∈ c.visited then c else _)
      by_cases hold : c.cursor ∈ c.visited
      · rw [if_pos hold]
        exact .stopped hvisited (Or.inr (Or.inr (hmem.1 hold)))
      rw [if_neg hold]
      by_cases hdiffers : c.Differs found
      · rw [if_pos hdiffers]
        refine .rejected ?_ (mt hmem.2 hold) (by show c.nodes.length < limit; omega) ?_
        · show c.cursor :: c.visited = _
          rw [hvisited]
        · show (nodes.find c.cursor).isSome = true
          rw [hfound]
          rfl
      · rw [if_neg hdiffers]
        refine ih ?_ ?_
        · show c.cursor :: c.visited = (chainStarts (c.nodes ++ [found])).reverse
          unfold chainStarts at hvisited ⊢
          rw [hvisited, List.map_append, List.map_singleton, List.reverse_concat,
            hblock _ _ hfound]
        · show (c.nodes ++ [found]).length + room = limit
          rw [List.length_append, List.length_singleton]
          omega

/-- Chains from one start that have one length are one chain. -/
theorem Linked.unique {nodes : NodeMap} {x y : UInt64} (l : List DispatchNode) :
    ∀ {start : UInt64} {m : List DispatchNode}, Linked nodes x start l → Linked nodes y start m →
      l.length = m.length → l = m ∧ x = y := by
  induction l with
  | nil =>
    rintro start m rfl hm hlength
    obtain rfl := List.length_eq_zero_iff.1 hlength.symm
    exact ⟨rfl, hm⟩
  | cons node l ih =>
    intro start m hl hm hlength
    cases m with
    | nil => cases hlength
    | cons other m =>
      obtain ⟨hnode, hl⟩ := hl
      obtain ⟨hother, hm⟩ := hm
      obtain rfl : node = other := Option.some.inj (hnode.symm.trans hother)
      obtain ⟨rfl, rfl⟩ := ih hl hm (Nat.succ_inj.1 hlength)
      exact ⟨rfl, rfl⟩

/-! ## Candidates -/

/-- The nodes of a candidate's comparison sites, from its entry on, and the address that follows the
last of them if its comparison fails. -/
structure DispatchCandidate.IsChain (c : DispatchCandidate) (blocks : List Block)
    (chain : List DispatchNode) (next : UInt64) : Prop where
  linked : Linked (dispatchNodes blocks) next c.entryBlock chain
  sites : chain.map (·.site) = c.comparisonSites

/-- A block outside the given ones has an edge to an address. -/
def EntersFromOutside (blocks : List Block) (starts : List UInt64) (entry : UInt64) : Prop :=
  ∃ block ∈ blocks, block.start ∉ starts ∧ entry ∈ block.successors

/-- The walk has looked at a node behind the chain and left it out. -/
structure RejectsNext (blocks : List Block) (limits : ClassifierLimits) (chain : List DispatchNode)
    (next : UInt64) : Prop where
  room : chain.length < limits.maximumDispatchCases
  new : next ∉ chainStarts chain
  found : ((dispatchNodes blocks).find next).isSome = true

section Candidate

variable {blocks : List Block} {limits : ClassifierLimits}

theorem block_of_dispatchNodes {a : UInt64} {node : DispatchNode}
    (h : (dispatchNodes blocks).find a = some node) : node.block = a := by
  obtain ⟨block, -, rfl, hparse⟩ := dispatchNodes_spec h
  obtain ⟨before, compare, passed, branch, p⟩ := parseDispatchNode_spec hparse
  rw [p.node]
  rfl

theorem linked_dispatchChain (start : UInt64) :
    Linked (dispatchNodes blocks) (dispatchChain (dispatchNodes blocks) limits start).cursor start
      (dispatchChain (dispatchNodes blocks) limits start).nodes := by
  have hok : (dispatchChain (dispatchNodes blocks) limits start).Ok (dispatchNodes blocks) start :=
    Chain.Ok.walk (fun _ _ h => dispatchNodes_reg h) _
      ⟨rfl, fun _ h => absurd h List.not_mem_nil, fun _ h => absurd h List.not_mem_nil,
        fun h => absurd rfl h⟩
  exact hok.linked

theorem ended_dispatchChain (start : UInt64) :
    (dispatchChain (dispatchNodes blocks) limits start).Ended (dispatchNodes blocks)
      limits.maximumDispatchCases :=
  Chain.ended_walk (fun _ _ h => block_of_dispatchNodes h) _ rfl (Nat.zero_add _)

theorem loopBacked_iff {visited : List UInt64} {start : UInt64} :
    (blocks.any fun block => decide (block.start ∉ visited) && decide (start ∈ block.successors)) =
      true ↔ EntersFromOutside blocks visited start := by
  simp [EntersFromOutside]

theorem entersFromOutside_cons_iff {starts : List UInt64} {next entry : UInt64}
    (hnew : next ∉ starts) :
    (EntersFromOutside blocks (next :: starts) entry ↔ EntersFromOutside blocks starts entry) ↔
      ((∃ block ∈ blocks, block.start = next ∧ entry ∈ block.successors) →
        EntersFromOutside blocks (next :: starts) entry) := by
  constructor
  · rintro h ⟨block, hblock, rfl, hentry⟩
    exact h.2 ⟨block, hblock, hnew, hentry⟩
  · intro h
    constructor
    · rintro ⟨block, hblock, hout, hentry⟩
      exact ⟨block, hblock, fun hmem => hout (List.mem_cons_of_mem _ hmem), hentry⟩
    · rintro ⟨block, hblock, hout, hentry⟩
      by_cases hstart : block.start = next
      · exact h ⟨block, hblock, hstart, hentry⟩
      · refine ⟨block, hblock, fun hmem => ?_, hentry⟩
        exact (List.mem_cons.1 hmem).elim hstart hout

/-- **Default target and loop edge.** They are what the chain says exactly if the walk has rejected
no node behind the chain, or if nothing hangs on it: it is at no valid address, and the edges from
outside the chain to the entry do not come from it alone. -/
theorem default_and_loop_iff {c : DispatchCandidate}
    (hc : c ∈ findDispatchCandidates blocks limits) :
    (∃ chain next, c.IsChain blocks chain next) ∧
    ∀ chain next, c.IsChain blocks chain next →
      ((c.defaultTarget =
            (if next ≠ badAddress ∧ next ∉ chainStarts chain then some next else none) ∧
          (c.loopBacked = true ↔ EntersFromOutside blocks (chainStarts chain) c.entryBlock)) ↔
        (RejectsNext blocks limits chain next → next = badAddress ∧
          ((∃ block ∈ blocks, block.start = next ∧ c.entryBlock ∈ block.successors) →
            EntersFromOutside blocks (next :: chainStarts chain) c.entryBlock))) := by
  obtain ⟨start, front, rest, targets, -, -, rfl⟩ := mem_findDispatchCandidates hc
  have hlinked := @linked_dispatchChain blocks limits start
  have hended := @ended_dispatchChain blocks limits start
  generalize hw : dispatchChain (dispatchNodes blocks) limits start = w at hlinked hended ⊢
  refine ⟨⟨w.nodes, w.cursor, hlinked, rfl⟩, ?_⟩
  rintro chain next ⟨hchain, hsites⟩
  have hlength : chain.length = w.nodes.length := by
    simpa [makeCandidate] using congrArg List.length hsites
  obtain ⟨rfl, rfl⟩ := hchain.unique _ hlinked hlength
  simp only [makeCandidate]
  rw [loopBacked_iff]
  cases hended with
  | stopped hvisited hwhy =>
    have hkeeps : ¬ RejectsNext blocks limits w.nodes w.cursor := by
      rintro ⟨hroom, hnew, hfound⟩
      rcases hwhy with hlimit | hnone | hold
      · omega
      · rw [hnone] at hfound
        cases hfound
      · exact hnew hold
    refine iff_of_true ⟨?_, ?_⟩ fun h => absurd h hkeeps
    · refine if_congr ?_ rfl rfl
      rw [hvisited, List.mem_reverse, and_comm]
    · rw [hvisited]
      simp only [EntersFromOutside, List.mem_reverse]
  | rejected hvisited hnew hroom hfound =>
    have hrejects : RejectsNext blocks limits w.nodes w.cursor := ⟨hroom, hnew, hfound⟩
    have hmem : ∀ a, a ∈ w.visited ↔ a ∈ w.cursor :: chainStarts w.nodes := by
      intro a
      rw [hvisited, List.mem_cons, List.mem_cons, List.mem_reverse]
    have henters : EntersFromOutside blocks w.visited start ↔
        EntersFromOutside blocks (w.cursor :: chainStarts w.nodes) start := by
      simp only [EntersFromOutside, hmem]
    rw [henters, forall_prop_of_true hrejects, entersFromOutside_cons_iff hnew]
    refine and_congr_left fun _ => ?_
    rw [if_neg fun h => h.1 ((hmem _).2 List.mem_cons_self)]
    by_cases hbad : w.cursor = badAddress
    · rw [if_neg fun h => h.1 hbad]
      exact iff_of_true rfl hbad
    · rw [if_pos ⟨hbad, hnew⟩]
      exact iff_of_false (by simp) hbad

end Candidate

/-- The chain of three cases ends outside the blocks. -/
theorem threeCases_default : ∃ c ∈ findDispatchCandidates threeCases {},
    c.defaultTarget = some 0x112 ∧ (c.loopBacked = true ↔
      EntersFromOutside threeCases [0x100, 0x106, 0x10c] 0x100) := by
  have hc : threeCasesCandidate ∈ findDispatchCandidates threeCases {} := List.mem_singleton.2 rfl
  have hchain : threeCasesCandidate.IsChain threeCases
      (dispatchChain (dispatchNodes threeCases) {} 0x100).nodes 0x112 :=
    ⟨@linked_dispatchChain threeCases {} 0x100, rfl⟩
  refine ⟨threeCasesCandidate, hc, ?_⟩
  refine ((default_and_loop_iff hc).2 _ _ hchain).2 fun hrejects => ?_
  exact absurd hrejects.found (by decide)

/-- The three cases, and a comparison of another register where the last of them fails; it goes back
to the entry. -/
def otherRegisterBehind : List Block :=
  threeCases ++
    [{ start := 0x112, successors := [0x100, 0x118]
       instructions :=
         [{ address := 0x112, size := 4, kind := .compareImmediate, destinationRegister := 2
            valueWidth := 4, immediate := 7, flagEffect := .knownCompare },
          { address := 0x116, size := 2, kind := .conditionalBranch, condition := .zero
            target := 0x100, flagEffect := .preserve }] }]

/-- Neither the default target nor the loop edge is reported. -/
theorem rejected_node_hides_default : (otherRegisterBehind.map (·.start)).Nodup ∧
    ∃ c ∈ findDispatchCandidates otherRegisterBehind {},
      c.comparisonSites = [0x104, 0x10a, 0x110] ∧ c.defaultTarget = none ∧ c.loopBacked = false ∧
        EntersFromOutside otherRegisterBehind [0x100, 0x106, 0x10c] c.entryBlock := by
  refine ⟨by decide, { threeCasesCandidate with defaultTarget := none },
    List.mem_singleton.2 rfl, rfl, rfl, rfl, ?_⟩
  exact ⟨_, List.mem_append_right _ (List.mem_singleton.2 rfl), by decide, by decide⟩

end Viy.Deobf
