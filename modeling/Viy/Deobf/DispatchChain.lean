import Viy.Deobf.DispatchSound

/-!
# Dispatch candidates

The walk of `find_dispatch_candidates` collects nodes that are linked by their failing edges and
compare one register at one width. If the blocks of a chain are clean, then every execution from its
entry comes to the target listed for its state, or to the default target if the state is not listed.
-/

namespace Viy.Deobf

open Absint

/-! ## Nodes of a program -/

theorem find_emplaceNode {nodes : NodeMap} {block : Block} {a : UInt64} {found : DispatchNode}
    (h : (emplaceNode nodes block).find a = some found) :
    nodes.find a = some found ∨ (block.start = a ∧ parseDispatchNode block = some found) := by
  unfold emplaceNode at h
  cases hparse : parseDispatchNode block with
  | none =>
    simp only [hparse] at h
    exact Or.inl h
  | some node =>
    simp only [hparse] at h
    obtain ⟨before, compare, passed, branch, p⟩ := parseDispatchNode_spec hparse
    have hstart : node.block = block.start := by
      rw [p.node]
      rfl
    unfold Cxx.Map.emplace at h
    rw [Cxx.Map.find_upsert, hstart] at h
    by_cases ha : block.start = a
    · rw [if_pos ha, ha] at h
      cases hfind : nodes.find a with
      | none =>
        rw [hfind] at h
        exact Or.inr ⟨ha, h⟩
      | some old =>
        rw [hfind] at h
        exact Or.inl h
    · rw [if_neg ha] at h
      exact Or.inl h

/-- Every node comes from the block at its address. -/
theorem dispatchNodes_spec {blocks : List Block} {a : UInt64} {node : DispatchNode}
    (h : (dispatchNodes blocks).find a = some node) :
    ∃ block ∈ blocks, block.start = a ∧ parseDispatchNode block = some node := by
  suffices hfold : ∀ (l : List Block) (nodes : NodeMap), (l.foldl emplaceNode nodes).find a =
      some node → nodes.find a = some node ∨
        ∃ block ∈ l, block.start = a ∧ parseDispatchNode block = some node by
    rcases hfold blocks .empty h with hnone | hblock
    · cases hnone
    · exact hblock
  intro l
  induction l with
  | nil =>
    intro nodes hnodes
    exact Or.inl hnodes
  | cons block l ih =>
    intro nodes hnodes
    rcases ih _ hnodes with hfirst | ⟨b, hb, hspec⟩
    · rcases find_emplaceNode hfirst with hold | hspec
      · exact Or.inl hold
      · exact Or.inr ⟨block, List.mem_cons_self, hspec⟩
    · exact Or.inr ⟨b, List.mem_cons_of_mem _ hb, hspec⟩

theorem dispatchNodes_reg {blocks : List Block} {a : UInt64} {node : DispatchNode}
    (h : (dispatchNodes blocks).find a = some node) : node.reg ≠ noRegister := by
  obtain ⟨block, -, -, hparse⟩ := dispatchNodes_spec h
  obtain ⟨before, compare, passed, branch, p⟩ := parseDispatchNode_spec hparse
  rw [p.node]
  exact p.register

/-! ## Walks -/

/-- The nodes follow each other from a start to a cursor. -/
def Linked (nodes : NodeMap) (cursor : UInt64) : UInt64 → List DispatchNode → Prop
  | start, [] => start = cursor
  | start, node :: rest => nodes.find start = some node ∧ Linked nodes cursor node.next rest

theorem Linked.snoc {nodes : NodeMap} {cursor : UInt64} {found : DispatchNode}
    (hfound : nodes.find cursor = some found) (l : List DispatchNode) : ∀ {start : UInt64},
      Linked nodes cursor start l → Linked nodes found.next start (l ++ [found]) := by
  induction l with
  | nil =>
    rintro start rfl
    exact ⟨hfound, rfl⟩
  | cons node l ih =>
    rintro start ⟨hnode, hrest⟩
    exact ⟨hnode, ih hrest⟩

/-- What the walk keeps. -/
structure Chain.Ok (nodes : NodeMap) (start : UInt64) (c : Chain) : Prop where
  linked : Linked nodes c.cursor start c.nodes
  reg : ∀ node ∈ c.nodes, node.reg = c.stateReg
  width : ∀ node ∈ c.nodes, ∀ front, c.nodes.head? = some front → node.width = front.width
  known : c.nodes ≠ [] → c.stateReg ≠ noRegister

theorem Chain.Ok.walk {nodes : NodeMap} {start : UInt64}
    (hregs : ∀ a node, nodes.find a = some node → node.reg ≠ noRegister) (room : ℕ) :
    ∀ {c : Chain}, c.Ok nodes start → (Chain.walk nodes room c).Ok nodes start := by
  induction room with
  | zero =>
    intro c h
    exact h
  | succ room ih =>
    intro c h
    unfold Chain.walk
    cases hfound : nodes.find c.cursor with
    | none => exact h
    | some found =>
      show Chain.Ok nodes start (if c.cursor ∈ c.visited then c else _)
      by_cases hvisited : c.cursor ∈ c.visited
      · rw [if_pos hvisited]
        exact h
      rw [if_neg hvisited]
      -- a state register that is not known yet belongs to no node
      have hkeep : ∀ node ∈ c.nodes, node.reg = c.register found := by
        intro node hnode
        unfold Chain.register
        rw [if_neg (h.known (List.ne_nil_of_mem hnode))]
        exact h.reg node hnode
      have hknown : c.register found ≠ noRegister := by
        unfold Chain.register
        by_cases hno : c.stateReg = noRegister
        · rw [if_pos hno]
          exact hregs _ _ hfound
        · rw [if_neg hno]
          exact hno
      by_cases hdiffers : c.Differs found
      · rw [if_pos hdiffers]
        exact ⟨h.linked, hkeep, h.width, fun _ => hknown⟩
      · rw [if_neg hdiffers]
        unfold Chain.Differs at hdiffers
        push Not at hdiffers
        refine ih ⟨h.linked.snoc hfound, ?_, ?_, fun _ => hknown⟩
        · intro node hnode
          rcases List.mem_append.1 hnode with hnode | hnode
          · exact hkeep node hnode
          · rw [List.mem_singleton.1 hnode]
            exact hdiffers.1
        · intro node hnode front hfront
          cases hnodes : c.nodes with
          | nil =>
            simp only [hnodes, List.nil_append, List.mem_singleton, List.head?_cons,
              Option.some.injEq] at hnode hfront
            rw [hnode, hfront]
          | cons first rest =>
            simp only [hnodes, List.cons_append, List.head?_cons, Option.some.injEq] at hfront
            have hhead : c.nodes.head? = some front := by
              rw [hnodes, ← hfront]
              rfl
            rcases List.mem_append.1 hnode with hnode | hnode
            · exact h.width node hnode front hhead
            · rw [List.mem_singleton.1 hnode]
              exact hdiffers.2 front hhead

/-! ## Listed cases -/

theorem selectorTargets_spec (l : List DispatchNode) :
    ∀ {targets result : Cxx.Map Cxx.Comparator.u64 UInt64},
      selectorTargets l targets = some result →
        (∀ s t, targets.find s = some t → result.find s = some t) ∧
        (∀ node ∈ l, result.find node.selector = some node.caseTarget) ∧
        (∀ s t, result.find s = some t →
          targets.find s = some t ∨ ∃ node ∈ l, node.selector = s) := by
  induction l with
  | nil =>
    intro targets result h
    obtain rfl := Option.some.inj h
    exact ⟨fun _ _ ht => ht, fun _ hnode => absurd hnode List.not_mem_nil, fun _ _ ht => Or.inl ht⟩
  | cons node l ih =>
    intro targets result h
    unfold selectorTargets at h
    split_ifs at h with hprior
    obtain ⟨hold, hnew, honly⟩ := ih h
    have hset : ∀ s, (targets.set node.selector node.caseTarget).find s =
        if node.selector = s then some node.caseTarget else targets.find s :=
      fun s => Cxx.Map.find_set _ _ _ _
    have hnode : result.find node.selector = some node.caseTarget := by
      apply hold
      rw [hset, if_pos rfl]
    refine ⟨?_, ?_, ?_⟩
    · intro s t ht
      by_cases hs : node.selector = s
      · -- an earlier entry has the same target
        rw [← hs] at ht ⊢
        rw [ht, Option.any_some, bne_iff_ne, not_not] at hprior
        rw [hnode, hprior]
      · apply hold
        rw [hset, if_neg hs]
        exact ht
    · intro other hother
      rcases List.mem_cons.1 hother with rfl | hother
      · exact hnode
      · exact hnew other hother
    · intro s t ht
      rcases honly s t ht with ht | ⟨other, hother, hs⟩
      · by_cases hs : node.selector = s
        · exact Or.inr ⟨node, List.mem_cons_self, hs⟩
        · rw [hset, if_neg hs] at ht
          exact Or.inl ht
      · exact Or.inr ⟨other, List.mem_cons_of_mem _ hother, hs⟩

/-- Where a candidate comes from. -/
theorem mem_findDispatchCandidates {blocks : List Block} {limits : ClassifierLimits}
    {c : DispatchCandidate} (h : c ∈ findDispatchCandidates blocks limits) :
    ∃ start front rest targets,
      (dispatchChain (dispatchNodes blocks) limits start).nodes = front :: rest ∧
      selectorTargets (front :: rest) .empty = some targets ∧
      c = makeCandidate blocks start (dispatchChain (dispatchNodes blocks) limits start) front
        targets := by
  unfold findDispatchCandidates at h
  split_ifs at h
  · cases h
  rw [Cxx.mem_sort] at h
  suffices hfrom : ∀ (starts emitted : List UInt64),
      c ∈ candidatesFrom blocks (dispatchNodes blocks) limits starts emitted →
        ∃ start emitted,
          candidateFrom blocks (dispatchNodes blocks) limits emitted start = some c by
    obtain ⟨start, emitted, hc⟩ := hfrom _ _ h
    unfold candidateFrom at hc
    cases hnodes : (dispatchChain (dispatchNodes blocks) limits start).nodes with
    | nil =>
      simp only [hnodes] at hc
      cases hc
    | cons front rest =>
      simp only [hnodes] at hc
      split_ifs at hc
      cases htargets : selectorTargets (front :: rest) .empty with
      | none =>
        simp only [htargets] at hc
        cases hc
      | some targets =>
        simp only [htargets] at hc
        split_ifs at hc
        exact ⟨start, front, rest, targets, hnodes, htargets, (Option.some.inj hc).symm⟩
  intro starts
  induction starts with
  | nil =>
    intro emitted hc
    cases hc
  | cons start starts ih =>
    intro emitted hc
    rcases List.mem_append.1 hc with hc | hc
    · exact ⟨start, emitted, Option.mem_toList.1 hc⟩
    · exact ih _ hc

/-! ## Executions along a chain -/

section Executions

variable {blocks : List Block} (hdistinct : (blocks.map (·.start)).Nodup)
  {cursor target v : UInt64} {reg : ℤ} {width : UInt8}

include hdistinct

/-- Every execution of a chain comes to the target of its state, or to the end of the chain. -/
theorem Linked.reaches (l : List DispatchNode) : ∀ {start : UInt64} {m : Machine},
    Linked (dispatchNodes blocks) cursor start l → l ≠ [] →
    (∀ node ∈ l, node.reg = reg ∧ node.width = width) →
    (∀ node ∈ l, ∀ block ∈ blocks, block.start = node.block → block.Clean node) →
    (∀ node ∈ l, node.selector = v → node.caseTarget = target) →
    ((∃ node ∈ l, node.selector = v) ∨ cursor = target) →
    lowBytes width (m.regs reg) = v → Program.Reaches blocks target (start, m) := by
  induction l with
  | nil =>
    intro start m _ hne
    exact absurd rfl hne
  | cons node l ih =>
    intro start m hlinked _ hstate hclean htarget hend hv
    obtain ⟨hfind, hrest⟩ := hlinked
    obtain ⟨hreg, hwidth⟩ := hstate node List.mem_cons_self
    obtain ⟨block, hblock, hstart, hparse⟩ := dispatchNodes_spec hfind
    have hnode : node.block = start := by
      obtain ⟨before, compare, passed, branch, p⟩ := parseDispatchNode_spec hparse
      rw [p.node, ← hstart]
      rfl
    have hacts : block.ActsAs node :=
      (hclean node List.mem_cons_self block hblock (hstart.trans hnode.symm)).actsAs
    refine .intro ?_ ?_
    · obtain ⟨m', next, hruns⟩ := exists_runs hparse m
      exact ⟨(next, m'), block, hblock, hstart, hruns⟩
    · rintro ⟨next, m'⟩ ⟨other, hother, hsame, hruns⟩ hgoal
      obtain rfl : other = block :=
        List.inj_on_of_nodup_map hdistinct hother hblock (hsame.trans hstart.symm)
      obtain ⟨hnext, hkept⟩ := hacts m m' next hruns
      rw [hreg, hwidth, hv] at hnext hkept
      change next = if v = node.selector then node.caseTarget else node.next at hnext
      change ¬ next = target at hgoal
      have hsel : ¬ v = node.selector := by
        intro hsel
        rw [if_pos hsel] at hnext
        exact hgoal (hnext.trans (htarget node List.mem_cons_self hsel.symm))
      rw [if_neg hsel] at hnext
      have hend' : (∃ other ∈ l, other.selector = v) ∨ cursor = target := by
        rcases hend with ⟨other, hother, hov⟩ | hcursor
        · rcases List.mem_cons.1 hother with rfl | hother
          · exact absurd hov.symm hsel
          · exact Or.inl ⟨other, hother, hov⟩
        · exact Or.inr hcursor
      have hne : l ≠ [] := by
        rintro rfl
        rcases hend' with ⟨other, hother, -⟩ | hcursor
        · cases hother
        · exact hgoal (hnext.trans (hrest.trans hcursor))
      rw [hnext]
      exact ih hrest hne (fun n hn => hstate n (List.mem_cons_of_mem _ hn))
        (fun n hn => hclean n (List.mem_cons_of_mem _ hn))
        (fun n hn => htarget n (List.mem_cons_of_mem _ hn)) hend' hkept

end Executions

/-- The blocks of a candidate's chain are clean. -/
def DispatchCandidate.CleanChain (c : DispatchCandidate) (blocks : List Block)
    (limits : ClassifierLimits) : Prop :=
  ∀ node ∈ (dispatchChain (dispatchNodes blocks) limits c.entryBlock).nodes,
    ∀ block ∈ blocks, block.start = node.block → block.Clean node

/-- **Dispatch candidates.** A block acts as its node exactly if it is clean. Where the blocks of a
chain are, every execution from its entry comes to the target that is listed for its state; if its
state is not listed, it comes to the default target. -/
theorem dispatch_reached_where_clean (blocks : List Block)
    (hdistinct : (blocks.map (·.start)).Nodup) (limits : ClassifierLimits) :
    (∀ block node, parseDispatchNode block = some node →
      (block.ActsAs node ↔ block.Clean node)) ∧
    ∀ c ∈ findDispatchCandidates blocks limits, c.CleanChain blocks limits → ∀ m : Machine,
      (∀ listed ∈ c.cases, lowBytes c.stateWidth (m.regs c.stateRegister) = listed.selector →
        Program.Reaches blocks listed.target (c.entryBlock, m)) ∧
      ((∀ listed ∈ c.cases, lowBytes c.stateWidth (m.regs c.stateRegister) ≠ listed.selector) →
        ∀ d, c.defaultTarget = some d → Program.Reaches blocks d (c.entryBlock, m)) := by
  refine ⟨fun block node h => actsAs_iff_clean h, ?_⟩
  intro c hc hclean m
  obtain ⟨start, front, rest, targets, hnodes, htargets, rfl⟩ := mem_findDispatchCandidates hc
  obtain ⟨-, hlisted, honly⟩ := selectorTargets_spec _ htargets
  have hok : (dispatchChain (dispatchNodes blocks) limits start).Ok (dispatchNodes blocks) start :=
    Chain.Ok.walk (fun _ _ h => dispatchNodes_reg h) _
      ⟨rfl, fun _ h => absurd h List.not_mem_nil, fun _ h => absurd h List.not_mem_nil,
        fun h => absurd rfl h⟩
  unfold DispatchCandidate.CleanChain at hclean
  change ∀ node ∈ (dispatchChain (dispatchNodes blocks) limits start).nodes, _ at hclean
  have hlinked := hok.linked
  rw [hnodes] at hclean hlinked
  have hstate : ∀ node ∈ front :: rest,
      node.reg = (dispatchChain (dispatchNodes blocks) limits start).stateReg ∧
        node.width = front.width := by
    intro node hnode
    rw [← hnodes] at hnode
    refine ⟨hok.reg node hnode, hok.width node hnode front ?_⟩
    rw [hnodes]
    rfl
  refine ⟨?_, ?_⟩
  · intro listed hcase hv
    obtain ⟨⟨s, t⟩, hst, rfl⟩ := List.mem_map.1 hcase
    have hfind : targets.find s = some t := Cxx.Map.mem_entries_iff.1 hst
    refine hlinked.reaches hdistinct _ (List.cons_ne_nil _ _) hstate hclean ?_ (Or.inl ?_) hv
    · intro node hnode hsel
      have hnodeTarget := hlisted node hnode
      rw [hsel] at hnodeTarget
      exact Option.some.inj (hnodeTarget.symm.trans hfind)
    · rcases honly s t hfind with hnone | hnode
      · cases hnone
      · exact hnode
  · intro hother d hd
    have hcursor : (dispatchChain (dispatchNodes blocks) limits start).cursor = d := by
      simp only [makeCandidate] at hd
      split_ifs at hd
      exact Option.some.inj hd
    refine hlinked.reaches hdistinct _ (List.cons_ne_nil _ _) hstate hclean ?_ (Or.inr hcursor) rfl
    intro node hnode hsel
    refine absurd hsel.symm (hother ⟨node.selector, node.caseTarget⟩ ?_)
    exact List.mem_map.2 ⟨(node.selector, node.caseTarget),
      Cxx.Map.mem_entries_iff.2 (hlisted node hnode), rfl⟩

/-- `cmp r1, selector; jz target`, after the given instructions -/
def compareBlock (start : UInt64) (before : List Instruction) (at_ selector target : UInt64) :
    Block where
  start := start
  successors := [target, at_ + 6]
  instructions := before ++
    [{ address := at_, size := 4, kind := .compareImmediate, destinationRegister := 1
       valueWidth := 4, immediate := selector, flagEffect := .knownCompare },
     { address := at_ + 4, size := 2, kind := .conditionalBranch, condition := .zero
       target := target, flagEffect := .preserve }]

def threeCases : List Block :=
  [compareBlock 0x100 [] 0x100 1 0x1000, compareBlock 0x106 [] 0x106 2 0x2000,
   compareBlock 0x10c [] 0x10c 3 0x3000]

theorem compareBlock_clean (start selector target : UInt64) {node : DispatchNode}
    (hnode : parseDispatchNode (compareBlock start [] start selector target) = some node) :
    (compareBlock start [] start selector target).Clean node := by
  obtain ⟨before, compare, passed, branch, p⟩ := parseDispatchNode_spec hnode
  obtain ⟨hbody, -⟩ :=
    List.append_inj' (p.instructions.symm.trans (List.append_assoc [] [_] [_]).symm) rfl
  obtain ⟨rfl, hrest⟩ | ⟨-, hrest⟩ := List.append_eq_singleton_iff.1 hbody
  · obtain rfl : passed = [] := (List.cons.inj hrest).2
    exact ⟨[], compare, [], branch, p, fun _ h => absurd h List.not_mem_nil,
      Or.inr fun front t back h => absurd h.symm (by simp)⟩
  · cases hrest

def threeCasesCandidate : DispatchCandidate where
  entryBlock := 0x100
  site := 0x104
  stateRegister := 1
  stateWidth := 4
  cases := [⟨1, 0x1000⟩, ⟨2, 0x2000⟩, ⟨3, 0x3000⟩]
  defaultTarget := some 0x112
  comparisonSites := [0x104, 0x10a, 0x110]
  selectorOneBitPercent := 4

/-- Machines whose registers all hold one value, with the zero flag clear. -/
def allHold (v : UInt64) : Machine := ⟨fun _ => v, {}, fun _ => 0⟩

theorem second_case_reached :
    ∃ c ∈ findDispatchCandidates threeCases {}, c.entryBlock = 0x100 ∧
      Program.Reaches threeCases 0x2000 (0x100, allHold 2) := by
  have hc : threeCasesCandidate ∈ findDispatchCandidates threeCases {} := List.mem_singleton.2 rfl
  refine ⟨threeCasesCandidate, hc, rfl, ?_⟩
  have hclean : threeCasesCandidate.CleanChain threeCases {} := by
    intro node hnode block hblock hstart
    change node ∈ [_, _, _] at hnode
    simp only [threeCases, List.mem_cons, List.not_mem_nil, or_false] at hblock hnode
    rcases hblock with rfl | rfl | rfl <;> rcases hnode with rfl | rfl | rfl <;>
      first
      | exact absurd hstart (by decide)
      | exact compareBlock_clean _ _ _ rfl
  exact ((dispatch_reached_where_clean threeCases (by decide) {}).2 _ hc hclean (allHold 2)).1
    ⟨2, 0x2000⟩ (by simp [threeCasesCandidate]) (by decide)

/-- A call before the second comparison. -/
def callBetween : List Block :=
  [compareBlock 0x100 [] 0x100 1 0x1000,
   compareBlock 0x106 [{ address := 0x106, size := 5, kind := .directCall }] 0x10b 2 0x2000,
   compareBlock 0x111 [] 0x111 3 0x3000]

/-- What is reported for these blocks. -/
def callBetweenCandidate : DispatchCandidate where
  entryBlock := 0x100
  site := 0x104
  stateRegister := 1
  stateWidth := 4
  cases := [⟨1, 0x1000⟩, ⟨2, 0x2000⟩, ⟨3, 0x3000⟩]
  defaultTarget := some 0x117
  comparisonSites := [0x104, 0x10f, 0x115]
  selectorOneBitPercent := 4

theorem compareBlock_fails {start at_ selector target next v : UInt64} {before : List Instruction}
    {m : Machine} (hrun : Run Instruction.Acts before m (allHold v))
    (hv : low 4 v ≠ low 4 selector)
    (hnext : next = Instruction.endAddress { address := at_ + 4, size := 2 }) :
    (compareBlock start before at_ selector target).Runs m (allHold v) next := by
  refine ⟨before ++ [_], _, allHold v, (List.append_assoc before [_] [_]).symm,
    run_append.2 ⟨_, hrun, _, ⟨frames_refl _ _, ?_⟩, rfl⟩, ⟨frames_refl _ _, fun _ => rfl⟩, hnext⟩
  exact (decide_eq_false hv).symm

/-- The call may change the state from 2 to 9, and then the case of 2 is not reached. -/
theorem call_misses_listed_target :
    (callBetween.map (·.start)).Nodup ∧
      callBetweenCandidate ∈ findDispatchCandidates callBetween {} ∧
      (⟨2, 0x2000⟩ : DispatchCaseCandidate) ∈ callBetweenCandidate.cases ∧
      ∃ m, lowBytes callBetweenCandidate.stateWidth
          (m.regs callBetweenCandidate.stateRegister) = 2 ∧
        ¬ Program.Reaches callBetween 0x2000 (callBetweenCandidate.entryBlock, m) := by
  refine ⟨by decide, List.mem_singleton.2 rfl, by simp [callBetweenCandidate], allHold 2, by decide,
    ?_⟩
  intro h
  have hfirst : Program.Step callBetween (0x100, allHold 2) (0x106, allHold 2) :=
    ⟨_, List.mem_cons_self, rfl, compareBlock_fails rfl (by decide) rfl⟩
  have hsecond : Program.Step callBetween (0x106, allHold 2) (0x111, allHold 9) :=
    ⟨_, List.mem_cons_of_mem _ List.mem_cons_self, rfl,
      compareBlock_fails ⟨_, ⟨Or.inl rfl, trivial⟩, rfl⟩ (by decide) rfl⟩
  have hthird : Program.Step callBetween (0x111, allHold 9) (0x117, allHold 9) :=
    ⟨_, List.mem_cons_of_mem _ (List.mem_cons_of_mem _ List.mem_cons_self), rfl,
      compareBlock_fails rfl (by decide) rfl⟩
  have hstuck := ((h.next hfirst (by decide)).next hsecond (by decide)).next hthird (by decide)
  -- there is no block at the default target
  obtain ⟨t, block, hblock, hstart, -⟩ := hstuck.exists_step
  have hnone : ∀ b ∈ callBetween, b.start ≠ 0x117 := by decide
  exact hnone block hblock hstart

end Viy.Deobf
