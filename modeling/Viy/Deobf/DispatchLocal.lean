import Viy.Deobf.DispatchDefault

/-!
# Dispatchers among unrelated code

Blocks that no edge connects do not share a chain, so `find_dispatch_candidates` should treat them
alike whether or not they stand in one list. The chain from a start and its candidate are local in
this sense. The choice of the starts is not: a circle of nodes has no natural head, and its lowest
node is taken only if no node of the whole list is a natural head and it is the lowest of all.
-/

namespace Viy.Deobf

/-! ## The nodes of a list of blocks -/

theorem next_mem_successors {block : Block} {node : DispatchNode}
    (h : parseDispatchNode block = some node) : node.next ∈ block.successors := by
  unfold parseDispatchNode at h
  split at h
  · rename_i branch insn rest hreverse
    split_ifs at h with hbranch hend hedges
    · cases hsearch : searchCompare (insn :: rest) with
      | none => simp [hsearch] at h
      | some found => simp [hsearch] at h
    · push Not at hedges
      cases hsearch : searchCompare (insn :: rest) with
      | none => simp [hsearch] at h
      | some found =>
        simp only [hsearch] at h
        split_ifs at h
        obtain rfl := Option.some.inj h
        unfold makeNode
        dsimp only
        split_ifs
        · exact hedges.2
        · exact hedges.1
  · cases h

theorem mem_keys_emplaceNode {nodes : NodeMap} {block : Block} {a : UInt64} :
    a ∈ (emplaceNode nodes block).keys ↔
      a ∈ nodes.keys ∨ (block.start = a ∧ (parseDispatchNode block).isSome = true) := by
  unfold emplaceNode
  cases hparse : parseDispatchNode block with
  | none => simp
  | some node =>
    obtain ⟨before, compare, passed, branch, p⟩ := parseDispatchNode_spec hparse
    have hstart : node.block = block.start := by
      rw [p.node]
      rfl
    dsimp only
    unfold Cxx.Map.emplace
    rw [Cxx.Map.mem_keys_upsert, hstart, or_comm, Option.isSome_some, and_iff_left rfl,
      @eq_comm _ a]

theorem mem_keys_dispatchNodes {blocks : List Block} {a : UInt64} :
    a ∈ (dispatchNodes blocks).keys ↔
      ∃ block ∈ blocks, block.start = a ∧ (parseDispatchNode block).isSome = true := by
  have hfold : ∀ nodes : NodeMap, a ∈ (blocks.foldl emplaceNode nodes).keys ↔ a ∈ nodes.keys ∨
      ∃ block ∈ blocks, block.start = a ∧ (parseDispatchNode block).isSome = true :=
    Cxx.Map.mem_keys_foldl (fun nodes block => @mem_keys_emplaceNode nodes block a) blocks
  exact (hfold .empty).trans (or_iff_right List.not_mem_nil)

theorem find_dispatchNodes_iff {blocks : List Block} (hdistinct : (blocks.map (·.start)).Nodup)
    {a : UInt64} {node : DispatchNode} :
    (dispatchNodes blocks).find a = some node ↔
      ∃ block ∈ blocks, block.start = a ∧ parseDispatchNode block = some node := by
  refine ⟨dispatchNodes_spec, ?_⟩
  rintro ⟨block, hblock, rfl, hparse⟩
  have hkey : block.start ∈ (dispatchNodes blocks).keys :=
    mem_keys_dispatchNodes.2 ⟨block, hblock, rfl, Option.isSome_of_eq_some hparse⟩
  obtain ⟨other, hother⟩ := Cxx.Map.mem_keys.1 hkey
  obtain ⟨b, hb, hstart, hparse'⟩ := dispatchNodes_spec hother
  obtain rfl : b = block := List.inj_on_of_nodup_map hdistinct hb hblock hstart
  rw [hother, ← hparse, hparse']

/-! ## The starts of the chains -/

/-- The nodes that no other node leads to on the same register and width. -/
def naturalHeads (nodes : NodeMap) : List UInt64 :=
  nodes.keys.filter fun key => key ∉ compatibleNextTargets nodes

section Starts

variable {nodes : NodeMap} {a : UInt64}

theorem mem_compatibleNextTargets : a ∈ compatibleNextTargets nodes ↔
    ∃ b before next, nodes.find b = some before ∧ before.next = a ∧ nodes.find a = some next ∧
      next.reg = before.reg ∧ next.width = before.width := by
  unfold compatibleNextTargets
  rw [List.mem_filterMap]
  constructor
  · rintro ⟨⟨b, before⟩, hbefore, ha⟩
    dsimp only at ha
    cases hnext : nodes.find before.next with
    | none => simp [hnext] at ha
    | some next =>
      simp only [hnext] at ha
      split_ifs at ha with hsame
      obtain rfl := Option.some.inj ha
      exact ⟨b, before, next, Cxx.Map.mem_entries_iff.1 hbefore, rfl, hnext, hsame⟩
  · rintro ⟨b, before, next, hbefore, rfl, hnext, hsame⟩
    refine ⟨(b, before), Cxx.Map.mem_entries_iff.2 hbefore, ?_⟩
    simp only [hnext]
    exact if_pos hsame

theorem mem_naturalHeads :
    a ∈ naturalHeads nodes ↔ a ∈ nodes.keys ∧ a ∉ compatibleNextTargets nodes := by
  unfold naturalHeads
  rw [List.mem_filter, decide_eq_true_iff]

theorem mem_take_one_keys : a ∈ nodes.keys.take 1 ↔ a ∈ nodes.keys ∧ ∀ b ∈ nodes.keys, a ≤ b := by
  have hsorted : nodes.keys.Pairwise fun x y => x < y :=
    List.pairwise_map.2 (nodes.sorted.imp fun h => of_decide_eq_true h)
  cases hkeys : nodes.keys with
  | nil => simp
  | cons first rest =>
    rw [hkeys, List.pairwise_cons] at hsorted
    rw [List.take_succ_cons, List.take_zero, List.mem_singleton]
    constructor
    · rintro rfl
      refine ⟨List.mem_cons_self, fun b hb => ?_⟩
      rcases List.mem_cons.1 hb with rfl | hb
      · exact UInt64.le_refl _
      · exact UInt64.le_of_lt (hsorted.1 b hb)
    · rintro ⟨ha, hle⟩
      rcases List.mem_cons.1 ha with rfl | ha
      · rfl
      · exact absurd (hsorted.1 a ha) (UInt64.not_lt.2 (hle first List.mem_cons_self))

/-- The starts are the natural heads, and the lowest node if there is none. -/
theorem mem_dispatchStarts : a ∈ dispatchStarts nodes ↔ a ∈ naturalHeads nodes ∨
    (naturalHeads nodes = [] ∧ a ∈ nodes.keys ∧ ∀ b ∈ nodes.keys, a ≤ b) := by
  show a ∈ (if naturalHeads nodes = [] then nodes.keys.take 1 else naturalHeads nodes) ↔ _
  by_cases hnone : naturalHeads nodes = []
  · rw [if_pos hnone, mem_take_one_keys, hnone, and_iff_right rfl, or_iff_right List.not_mem_nil]
  · rw [if_neg hnone, or_iff_left fun h => hnone h.1]

theorem nodup_dispatchStarts : (dispatchStarts nodes).Nodup := by
  show (if naturalHeads nodes = [] then nodes.keys.take 1 else naturalHeads nodes).Nodup
  split_ifs
  · exact nodes.nodup_keys.sublist (List.take_sublist _ _)
  · exact nodes.nodup_keys.filter _

theorem mem_keys_of_mem_dispatchStarts (h : a ∈ dispatchStarts nodes) : a ∈ nodes.keys := by
  rcases mem_dispatchStarts.1 h with hhead | hlowest
  · exact (mem_naturalHeads.1 hhead).1
  · exact hlowest.2.1

end Starts

/-! ## Parts that are closed under edges -/

/-- No edge connects a part of the blocks with the others. -/
structure ClosedPart (part whole : List Block) : Prop where
  distinct : (whole.map (·.start)).Nodup
  sublist : part.Sublist whole
  outgoing : ∀ block ∈ part, ∀ other ∈ whole, other.start ∈ block.successors → other ∈ part
  incoming : ∀ block ∈ part, ∀ other ∈ whole, block.start ∈ other.successors → other ∈ part

section ClosedPart

variable {part whole : List Block} (hp : ClosedPart part whole) {limits : ClassifierLimits}
  {a : UInt64} {node : DispatchNode}

include hp

theorem ClosedPart.distinct_part : (part.map (·.start)).Nodup :=
  hp.distinct.sublist (hp.sublist.map _)

theorem ClosedPart.mem_whole {block : Block} (hblock : block ∈ part) : block ∈ whole :=
  hp.sublist.subset hblock

theorem ClosedPart.find_whole (h : (dispatchNodes part).find a = some node) :
    (dispatchNodes whole).find a = some node := by
  obtain ⟨block, hblock, hspec⟩ := dispatchNodes_spec h
  exact (find_dispatchNodes_iff hp.distinct).2 ⟨block, hp.mem_whole hblock, hspec⟩

theorem ClosedPart.find_of_whole (h : (dispatchNodes whole).find a = some node)
    (hpart : ∀ block ∈ whole, block.start = a → block ∈ part) :
    (dispatchNodes part).find a = some node := by
  obtain ⟨block, hblock, hstart, hparse⟩ := dispatchNodes_spec h
  exact (find_dispatchNodes_iff hp.distinct_part).2
    ⟨block, hpart block hblock hstart, hstart, hparse⟩

/-- Behind a node of the part, both maps have the same node. -/
theorem ClosedPart.find_next (h : (dispatchNodes part).find a = some node) :
    (dispatchNodes part).find node.next = (dispatchNodes whole).find node.next := by
  obtain ⟨block, hblock, -, hparse⟩ := dispatchNodes_spec h
  refine Option.ext fun next => ⟨hp.find_whole, fun hnext => hp.find_of_whole hnext ?_⟩
  intro other hother hstart
  refine hp.outgoing block hblock other hother ?_
  rw [hstart]
  exact next_mem_successors hparse

/-! ## Chains and candidates -/

theorem ClosedPart.walk_eq (room : ℕ) : ∀ {c : Chain},
    (dispatchNodes part).find c.cursor = (dispatchNodes whole).find c.cursor →
      Chain.walk (dispatchNodes whole) room c = Chain.walk (dispatchNodes part) room c := by
  induction room with
  | zero =>
    intro c _
    rfl
  | succ room ih =>
    intro c hcursor
    unfold Chain.walk
    rw [← hcursor]
    cases hfound : (dispatchNodes part).find c.cursor with
    | none => rfl
    | some found =>
      have hrest := @ih
        { nodes := c.nodes ++ [found]
          visited := c.cursor :: c.visited
          cursor := found.next
          stateReg := c.register found } (hp.find_next hfound)
      dsimp only
      rw [hrest]

/-- The blocks outside have no edge to a start inside. -/
theorem ClosedPart.makeCandidate_eq (h : (dispatchNodes part).find a = some node) (chain : Chain)
    (front : DispatchNode) (targets : Cxx.Map Cxx.Comparator.u64 UInt64) :
    makeCandidate whole a chain front targets = makeCandidate part a chain front targets := by
  obtain ⟨block, hblock, rfl, -⟩ := dispatchNodes_spec h
  unfold makeCandidate
  congr 1
  rw [Bool.eq_iff_iff, loopBacked_iff, loopBacked_iff]
  constructor
  · rintro ⟨other, hother, hvisited, hedge⟩
    exact ⟨other, hp.incoming block hblock other hother hedge, hvisited, hedge⟩
  · rintro ⟨other, hother, hvisited, hedge⟩
    exact ⟨other, hp.mem_whole hother, hvisited, hedge⟩

/-- The candidate from a start inside is the one that the part alone has. -/
theorem ClosedPart.candidateFrom_eq (h : (dispatchNodes part).find a = some node)
    (emitted : List UInt64) :
    candidateFrom whole (dispatchNodes whole) limits emitted a =
      candidateFrom part (dispatchNodes part) limits emitted a := by
  have hchain : dispatchChain (dispatchNodes whole) limits a =
      dispatchChain (dispatchNodes part) limits a :=
    hp.walk_eq _ (h.trans (hp.find_whole h).symm)
  unfold candidateFrom
  rw [hchain]
  simp only [hp.makeCandidate_eq h]

/-! ## Natural heads -/

theorem ClosedPart.mem_compatibleNextTargets_iff (h : (dispatchNodes part).find a = some node) :
    a ∈ compatibleNextTargets (dispatchNodes whole) ↔
      a ∈ compatibleNextTargets (dispatchNodes part) := by
  rw [mem_compatibleNextTargets, mem_compatibleNextTargets]
  constructor
  · rintro ⟨b, before, next, hbefore, rfl, hnext, hsame⟩
    obtain ⟨block, hblock, hstart, -⟩ := dispatchNodes_spec h
    obtain ⟨other, hother, hb, hparse⟩ := dispatchNodes_spec hbefore
    have hedge : block.start ∈ other.successors := by
      rw [hstart]
      exact next_mem_successors hparse
    refine ⟨b, before, next, ?_, rfl, ?_, hsame⟩
    · exact (find_dispatchNodes_iff hp.distinct_part).2
        ⟨other, hp.incoming block hblock other hother hedge, hb, hparse⟩
    · rwa [h, ← hp.find_whole h]
  · rintro ⟨b, before, next, hbefore, hb, hnext, hsame⟩
    exact ⟨b, before, next, hp.find_whole hbefore, hb, hp.find_whole hnext, hsame⟩

theorem ClosedPart.mem_naturalHeads_iff (h : a ∈ (dispatchNodes part).keys) :
    a ∈ naturalHeads (dispatchNodes whole) ↔ a ∈ naturalHeads (dispatchNodes part) := by
  obtain ⟨node, hnode⟩ := Cxx.Map.mem_keys.1 h
  rw [mem_naturalHeads, mem_naturalHeads, hp.mem_compatibleNextTargets_iff hnode]
  exact and_congr_left fun _ => iff_of_true (Cxx.Map.mem_keys.2 ⟨node, hp.find_whole hnode⟩) h

end ClosedPart

/-! ## Candidates of distinct sites -/

/-- No two nodes branch at one address. -/
def SitesDistinct (blocks : List Block) : Prop :=
  ((blocks.filterMap parseDispatchNode).map (·.site)).Nodup

/-- `find_dispatch_candidates` sorts the candidates by site. -/
def siteLess (c d : DispatchCandidate) : Bool := c.site < d.site

section Candidates

variable {blocks : List Block} {limits : ClassifierLimits} {start : UInt64}

theorem SitesDistinct.eq (hsites : SitesDistinct blocks) {a b : UInt64} {n m : DispatchNode}
    (hn : (dispatchNodes blocks).find a = some n) (hm : (dispatchNodes blocks).find b = some m)
    (h : n.site = m.site) : a = b := by
  obtain ⟨block, hblock, -, hparse⟩ := dispatchNodes_spec hn
  obtain ⟨other, hother, -, hparse'⟩ := dispatchNodes_spec hm
  obtain rfl : n = m := List.inj_on_of_nodup_map hsites
    (List.mem_filterMap.2 ⟨block, hblock, hparse⟩) (List.mem_filterMap.2 ⟨other, hother, hparse'⟩) h
  exact (block_of_dispatchNodes hn).symm.trans (block_of_dispatchNodes hm)

/-- A chain that is not empty begins with the node of its start. -/
theorem find_of_dispatchChain {front : DispatchNode} {rest : List DispatchNode}
    (h : (dispatchChain (dispatchNodes blocks) limits start).nodes = front :: rest) :
    (dispatchNodes blocks).find start = some front := by
  have hlinked := @linked_dispatchChain blocks limits start
  rw [h] at hlinked
  exact hlinked.1

theorem candidateFrom_spec {emitted : List UInt64} {c : DispatchCandidate}
    (h : candidateFrom blocks (dispatchNodes blocks) limits emitted start = some c) :
    c.entryBlock = start ∧
      ∃ node, (dispatchNodes blocks).find start = some node ∧ c.site = node.site := by
  unfold candidateFrom at h
  cases hnodes : (dispatchChain (dispatchNodes blocks) limits start).nodes with
  | nil => simp [hnodes] at h
  | cons front rest =>
    simp only [hnodes] at h
    split_ifs at h
    cases htargets : selectorTargets (front :: rest) .empty with
    | none => simp [htargets] at h
    | some targets =>
      simp only [htargets] at h
      split_ifs at h
      obtain rfl := Option.some.inj h
      exact ⟨rfl, front, find_of_dispatchChain hnodes, rfl⟩

/-- Sites emitted before matter only if the start has one of them. -/
theorem candidateFrom_emitted {emitted : List UInt64}
    (h : ∀ node, (dispatchNodes blocks).find start = some node → node.site ∉ emitted) :
    candidateFrom blocks (dispatchNodes blocks) limits emitted start =
      candidateFrom blocks (dispatchNodes blocks) limits [] start := by
  unfold candidateFrom
  cases hnodes : (dispatchChain (dispatchNodes blocks) limits start).nodes with
  | nil => simp only [hnodes]
  | cons front rest =>
    have hfront : front.site ∉ emitted := h front (find_of_dispatchChain hnodes)
    simp only [hnodes, hfront, List.not_mem_nil]

theorem mem_emittedAfter {emitted : List UInt64} {site : UInt64}
    (h : site ∈ emittedAfter (dispatchNodes blocks) limits emitted start) :
    site ∈ emitted ∨ ∃ node, (dispatchNodes blocks).find start = some node ∧ node.site = site := by
  unfold emittedAfter at h
  cases hnodes : (dispatchChain (dispatchNodes blocks) limits start).nodes with
  | nil =>
    simp only [hnodes] at h
    exact Or.inl h
  | cons front rest =>
    simp only [hnodes] at h
    split_ifs at h
    · exact Or.inl h
    · rcases List.mem_cons.1 h with rfl | hold
      · exact Or.inr ⟨front, find_of_dispatchChain hnodes, rfl⟩
      · exact Or.inl hold

theorem candidatesFrom_eq (hsites : SitesDistinct blocks) (starts : List UInt64) :
    ∀ {emitted : List UInt64}, starts.Nodup →
      (∀ s ∈ starts, ∀ node, (dispatchNodes blocks).find s = some node → node.site ∉ emitted) →
      candidatesFrom blocks (dispatchNodes blocks) limits starts emitted =
        starts.filterMap (candidateFrom blocks (dispatchNodes blocks) limits []) := by
  induction starts with
  | nil =>
    intro emitted _ _
    rfl
  | cons start starts ih =>
    intro emitted hnodup hnew
    obtain ⟨hstart, hnodup⟩ := List.nodup_cons.1 hnodup
    unfold candidatesFrom
    rw [candidateFrom_emitted (hnew start List.mem_cons_self), ih hnodup]
    · rw [List.filterMap_cons]
      cases candidateFrom blocks (dispatchNodes blocks) limits [] start <;> rfl
    · -- a later start has another site than this one
      intro s hs node hnode hemitted
      rcases mem_emittedAfter hemitted with hold | ⟨other, hother, hsite⟩
      · exact hnew s (List.mem_cons_of_mem _ hs) node hnode hold
      · exact hstart (hsites.eq hother hnode hsite ▸ hs)

/-- The limits that `find_dispatch_candidates` accepts. -/
def ClassifierLimits.AllowDispatch (limits : ClassifierLimits) : Prop :=
  ¬ (limits.minimumDispatchCases = 0 ∨ limits.maximumDispatchCases < limits.minimumDispatchCases)

theorem mem_findDispatchCandidates_iff (hsites : SitesDistinct blocks) {c : DispatchCandidate} :
    c ∈ findDispatchCandidates blocks limits ↔ limits.AllowDispatch ∧
      ∃ s ∈ dispatchStarts (dispatchNodes blocks),
        candidateFrom blocks (dispatchNodes blocks) limits [] s = some c := by
  unfold findDispatchCandidates ClassifierLimits.AllowDispatch
  by_cases hlimits : limits.minimumDispatchCases = 0 ∨
      limits.maximumDispatchCases < limits.minimumDispatchCases
  · rw [if_pos hlimits]
    exact iff_of_false List.not_mem_nil fun h => h.1 hlimits
  · rw [if_neg hlimits, and_iff_right hlimits, Cxx.mem_sort,
      candidatesFrom_eq hsites _ nodup_dispatchStarts fun _ _ _ _ => List.not_mem_nil,
      List.mem_filterMap]

theorem entryBlock_mem_keys (hsites : SitesDistinct blocks) {c : DispatchCandidate}
    (hc : c ∈ findDispatchCandidates blocks limits) :
    c.entryBlock ∈ (dispatchNodes blocks).keys := by
  obtain ⟨-, s, hs, hcandidate⟩ := (mem_findDispatchCandidates_iff hsites).1 hc
  rw [(candidateFrom_spec hcandidate).1]
  exact mem_keys_of_mem_dispatchStarts hs

theorem sorted_findDispatchCandidates (hsites : SitesDistinct blocks) :
    Cxx.Sorted siteLess (findDispatchCandidates blocks limits) := by
  unfold findDispatchCandidates
  split_ifs
  · exact List.Pairwise.nil
  · refine Cxx.sort_sorted_key Cxx.Comparator.u64 DispatchCandidate.site ?_
    rw [candidatesFrom_eq hsites _ nodup_dispatchStarts fun _ _ _ _ => List.not_mem_nil,
      List.Nodup, List.pairwise_map, List.pairwise_filterMap]
    refine nodup_dispatchStarts.imp fun {s t} hne c hc d hd heq => ?_
    obtain ⟨-, n, hn, hsite⟩ := candidateFrom_spec hc
    obtain ⟨-, m, hm, hsite'⟩ := candidateFrom_spec hd
    exact hne (hsites.eq hn hm (hsite.symm.trans (heq.trans hsite')))

theorem nodup_sites (hsites : SitesDistinct blocks) :
    ((findDispatchCandidates blocks limits).map DispatchCandidate.site).Nodup :=
  List.pairwise_map.2 ((sorted_findDispatchCandidates hsites).imp fun h =>
    Cxx.Comparator.u64.ne_of_less h)

theorem SitesDistinct.part {part whole : List Block} (hsites : SitesDistinct whole)
    (h : part.Sublist whole) : SitesDistinct part :=
  List.Nodup.sublist ((h.filterMap _).map _) hsites

/-- The candidates of a closed part, as the whole list has them. -/
theorem ClosedPart.mem_findDispatchCandidates_iff {part whole : List Block}
    (hp : ClosedPart part whole) (hsites : SitesDistinct whole) {c : DispatchCandidate} :
    c ∈ findDispatchCandidates part limits ↔ limits.AllowDispatch ∧
      ∃ s ∈ dispatchStarts (dispatchNodes part),
        candidateFrom whole (dispatchNodes whole) limits [] s = some c := by
  rw [Deobf.mem_findDispatchCandidates_iff (hsites.part hp.sublist)]
  refine and_congr_right fun _ => exists_congr fun s => and_congr_right fun hs => ?_
  obtain ⟨node, hnode⟩ := Cxx.Map.mem_keys.1 (mem_keys_of_mem_dispatchStarts hs)
  rw [hp.candidateFrom_eq hnode]

end Candidates

/-! ## Two lists without an edge between them -/

/-- No edge leads from a block of one list to a block of the other. -/
def Unrelated (A B : List Block) : Prop :=
  ∀ a ∈ A, ∀ b ∈ B, b.start ∉ a.successors ∧ a.start ∉ b.successors

/-- Nodes without a natural head of which none is a start, because the other nodes have a natural
head or the lowest node. -/
def PassedOver (nodes others : NodeMap) : Prop :=
  naturalHeads nodes = [] ∧
    (naturalHeads others ≠ [] ∨ ∃ b ∈ others.keys, ∀ a ∈ nodes.keys, b < a)

theorem start_and_not_passedOver_iff {nodes others : NodeMap} {a : UInt64} :
    (a ∈ dispatchStarts nodes ∧ ¬ PassedOver nodes others) ↔ a ∈ naturalHeads nodes ∨
      (naturalHeads nodes = [] ∧ naturalHeads others = [] ∧ a ∈ nodes.keys ∧
        (∀ b ∈ nodes.keys, a ≤ b) ∧ ∀ b ∈ others.keys, a ≤ b) := by
  rw [mem_dispatchStarts]
  constructor
  · rintro ⟨hhead | ⟨hnone, hkey, hleast⟩, hkept⟩
    · exact Or.inl hhead
    · unfold PassedOver at hkept
      push Not at hkept
      obtain ⟨hothers, hlow⟩ := hkept hnone
      refine Or.inr ⟨hnone, hothers, hkey, hleast, fun b hb => ?_⟩
      obtain ⟨k, hk, hkb⟩ := hlow b hb
      exact UInt64.le_trans (hleast k hk) (UInt64.not_lt.1 hkb)
  · rintro (hhead | ⟨hnone, hothers, hkey, hleast, hlow⟩)
    · exact ⟨Or.inl hhead, fun hpassed => List.ne_nil_of_mem hhead hpassed.1⟩
    · refine ⟨Or.inr ⟨hnone, hkey, hleast⟩, ?_⟩
      rintro ⟨-, hheads | ⟨b, hb, hbelow⟩⟩
      · exact hheads hothers
      · exact UInt64.not_lt.2 (hlow b hb) (hbelow a hkey)

section Append

variable {A B : List Block} {limits : ClassifierLimits} {a : UInt64}

theorem Unrelated.symm (h : Unrelated A B) : Unrelated B A :=
  fun b hb a ha => ⟨(h a ha b hb).2, (h a ha b hb).1⟩

/-- A part that is unrelated to all other blocks is closed. -/
theorem Unrelated.closedPart {whole : List Block} (h : Unrelated A B)
    (hdistinct : (whole.map (·.start)).Nodup) (hsublist : A.Sublist whole)
    (hwhole : ∀ block ∈ whole, block ∈ A ∨ block ∈ B) : ClosedPart A whole := by
  refine ⟨hdistinct, hsublist, ?_, ?_⟩
  · intro block hblock other hother hedge
    exact (hwhole other hother).resolve_right fun hB => (h block hblock other hB).1 hedge
  · intro block hblock other hother hedge
    exact (hwhole other hother).resolve_right fun hB => (h block hblock other hB).2 hedge

theorem Unrelated.closedPart_left (h : Unrelated A B)
    (hdistinct : ((A ++ B).map (·.start)).Nodup) : ClosedPart A (A ++ B) :=
  h.closedPart hdistinct (List.sublist_append_left A B) fun _ => List.mem_append.1

theorem Unrelated.closedPart_right (h : Unrelated A B)
    (hdistinct : ((A ++ B).map (·.start)).Nodup) : ClosedPart B (A ++ B) :=
  h.symm.closedPart hdistinct (List.sublist_append_right A B) fun _ hblock =>
    (List.mem_append.1 hblock).symm

theorem mem_keys_append : a ∈ (dispatchNodes (A ++ B)).keys ↔
    a ∈ (dispatchNodes A).keys ∨ a ∈ (dispatchNodes B).keys := by
  simp only [mem_keys_dispatchNodes, List.mem_append, or_and_right, exists_or]

theorem not_mem_keys_both (hdistinct : ((A ++ B).map (·.start)).Nodup)
    (ha : a ∈ (dispatchNodes A).keys) : a ∉ (dispatchNodes B).keys := by
  intro hb
  obtain ⟨block, hblock, rfl, -⟩ := mem_keys_dispatchNodes.1 ha
  obtain ⟨other, hother, hstart, -⟩ := mem_keys_dispatchNodes.1 hb
  rw [List.map_append] at hdistinct
  refine List.disjoint_of_nodup_append hdistinct (List.mem_map_of_mem hblock) ?_
  exact List.mem_map.2 ⟨other, hother, hstart⟩

variable (hrelated : Unrelated A B) (hdistinct : ((A ++ B).map (·.start)).Nodup)

include hrelated hdistinct

theorem mem_naturalHeads_append : a ∈ naturalHeads (dispatchNodes (A ++ B)) ↔
    a ∈ naturalHeads (dispatchNodes A) ∨ a ∈ naturalHeads (dispatchNodes B) := by
  have hleft := hrelated.closedPart_left hdistinct
  have hright := hrelated.closedPart_right hdistinct
  constructor
  · intro h
    rcases mem_keys_append.1 (mem_naturalHeads.1 h).1 with ha | ha
    · exact Or.inl ((hleft.mem_naturalHeads_iff ha).1 h)
    · exact Or.inr ((hright.mem_naturalHeads_iff ha).1 h)
  · rintro (h | h)
    · exact (hleft.mem_naturalHeads_iff (mem_naturalHeads.1 h).1).2 h
    · exact (hright.mem_naturalHeads_iff (mem_naturalHeads.1 h).1).2 h

theorem naturalHeads_append_eq_nil : naturalHeads (dispatchNodes (A ++ B)) = [] ↔
    naturalHeads (dispatchNodes A) = [] ∧ naturalHeads (dispatchNodes B) = [] := by
  simp only [List.eq_nil_iff_forall_not_mem, mem_naturalHeads_append hrelated hdistinct, not_or,
    forall_and]

/-- The starts of the whole list are those of the parts that are not passed over. -/
theorem mem_dispatchStarts_append : a ∈ dispatchStarts (dispatchNodes (A ++ B)) ↔
    (a ∈ dispatchStarts (dispatchNodes A) ∧ ¬ PassedOver (dispatchNodes A) (dispatchNodes B)) ∨
    (a ∈ dispatchStarts (dispatchNodes B) ∧ ¬ PassedOver (dispatchNodes B) (dispatchNodes A)) := by
  rw [start_and_not_passedOver_iff, start_and_not_passedOver_iff, mem_dispatchStarts,
    mem_naturalHeads_append hrelated hdistinct, naturalHeads_append_eq_nil hrelated hdistinct,
    mem_keys_append]
  simp only [mem_keys_append, or_imp, forall_and]
  tauto

/-- A candidate of the whole list is one of a part that is not passed over. -/
theorem mem_findDispatchCandidates_append (hsites : SitesDistinct (A ++ B))
    {c : DispatchCandidate} :
    c ∈ findDispatchCandidates (A ++ B) limits ↔
      (c ∈ findDispatchCandidates A limits ∧
        ¬ PassedOver (dispatchNodes A) (dispatchNodes B)) ∨
      (c ∈ findDispatchCandidates B limits ∧
        ¬ PassedOver (dispatchNodes B) (dispatchNodes A)) := by
  rw [mem_findDispatchCandidates_iff hsites,
    (hrelated.closedPart_left hdistinct).mem_findDispatchCandidates_iff hsites,
    (hrelated.closedPart_right hdistinct).mem_findDispatchCandidates_iff hsites]
  simp only [mem_dispatchStarts_append hrelated hdistinct]
  constructor
  · rintro ⟨hlimits, s, ⟨hs, hkept⟩ | ⟨hs, hkept⟩, hc⟩
    · exact Or.inl ⟨⟨hlimits, s, hs, hc⟩, hkept⟩
    · exact Or.inr ⟨⟨hlimits, s, hs, hc⟩, hkept⟩
  · rintro (⟨⟨hlimits, s, hs, hc⟩, hkept⟩ | ⟨⟨hlimits, s, hs, hc⟩, hkept⟩)
    · exact ⟨hlimits, s, Or.inl ⟨hs, hkept⟩, hc⟩
    · exact ⟨hlimits, s, Or.inr ⟨hs, hkept⟩, hc⟩

end Append

section Locality

variable {A B : List Block} {limits : ClassifierLimits} (hsites : SitesDistinct (A ++ B))
  (hdistinct : ((A ++ B).map (·.start)).Nodup)

include hsites hdistinct

theorem not_mem_both {c : DispatchCandidate} (hA : c ∈ findDispatchCandidates A limits) :
    c ∉ findDispatchCandidates B limits := fun hB =>
  not_mem_keys_both hdistinct (entryBlock_mem_keys (hsites.part (List.sublist_append_left A B)) hA)
    (entryBlock_mem_keys (hsites.part (List.sublist_append_right A B)) hB)

theorem sorted_merged (hrelated : Unrelated A B) :
    Cxx.Sorted siteLess (Cxx.sort siteLess
      (findDispatchCandidates A limits ++ findDispatchCandidates B limits)) := by
  refine Cxx.sort_sorted_key Cxx.Comparator.u64 DispatchCandidate.site ?_
  rw [List.map_append]
  refine List.nodup_append.2 ⟨nodup_sites (hsites.part (List.sublist_append_left A B)),
    nodup_sites (hsites.part (List.sublist_append_right A B)), ?_⟩
  rintro x hx y hy rfl
  obtain ⟨c, hc, rfl⟩ := List.mem_map.1 hx
  obtain ⟨d, hd, hsite⟩ := List.mem_map.1 hy
  obtain ⟨-, s, hs, hfrom⟩ :=
    ((hrelated.closedPart_left hdistinct).mem_findDispatchCandidates_iff hsites).1 hc
  obtain ⟨-, t, ht, hfrom'⟩ :=
    ((hrelated.closedPart_right hdistinct).mem_findDispatchCandidates_iff hsites).1 hd
  obtain ⟨-, n, hn, hcn⟩ := candidateFrom_spec hfrom
  obtain ⟨-, m, hm, hdm⟩ := candidateFrom_spec hfrom'
  obtain rfl : s = t := hsites.eq hn hm (hcn.symm.trans (hsite.symm.trans hdm))
  exact not_mem_keys_both hdistinct (mem_keys_of_mem_dispatchStarts hs)
    (mem_keys_of_mem_dispatchStarts ht)

end Locality

/-- **Locality.** The candidates of two unrelated lists of blocks are those of each list, merged by
site, exactly if a list that is passed over next to the other has no candidate of its own. -/
theorem candidates_local_iff (A B : List Block) (limits : ClassifierLimits)
    (hdistinct : ((A ++ B).map (·.start)).Nodup) (hsites : SitesDistinct (A ++ B))
    (hrelated : Unrelated A B) :
    findDispatchCandidates (A ++ B) limits =
        Cxx.sort siteLess (findDispatchCandidates A limits ++ findDispatchCandidates B limits) ↔
      (PassedOver (dispatchNodes A) (dispatchNodes B) → findDispatchCandidates A limits = []) ∧
      (PassedOver (dispatchNodes B) (dispatchNodes A) → findDispatchCandidates B limits = []) := by
  have hmem := fun c => @mem_findDispatchCandidates_append A B limits hrelated hdistinct hsites c
  have hmerged : ∀ c, c ∈ Cxx.sort siteLess
      (findDispatchCandidates A limits ++ findDispatchCandidates B limits) ↔
        c ∈ findDispatchCandidates A limits ∨ c ∈ findDispatchCandidates B limits := by
    intro c
    rw [Cxx.mem_sort, List.mem_append]
  constructor
  · intro heq
    have hall : ∀ c, c ∈ findDispatchCandidates A limits ∨ c ∈ findDispatchCandidates B limits →
        c ∈ findDispatchCandidates (A ++ B) limits := by
      intro c hc
      rw [heq]
      exact (hmerged c).2 hc
    constructor
    · intro hpassed
      refine List.eq_nil_iff_forall_not_mem.2 fun c hc => ?_
      rcases (hmem c).1 (hall c (Or.inl hc)) with ⟨-, hkept⟩ | ⟨hB, -⟩
      · exact hkept hpassed
      · exact not_mem_both hsites hdistinct hc hB
    · intro hpassed
      refine List.eq_nil_iff_forall_not_mem.2 fun c hc => ?_
      rcases (hmem c).1 (hall c (Or.inr hc)) with ⟨hA, -⟩ | ⟨-, hkept⟩
      · exact not_mem_both hsites hdistinct hA hc
      · exact hkept hpassed
  · rintro ⟨hA, hB⟩
    refine @Cxx.eq_of_mem_iff _ _ Cxx.Comparator.u64 DispatchCandidate.site _ _
      (sorted_findDispatchCandidates hsites) (sorted_merged hsites hdistinct hrelated) fun c => ?_
    rw [hmem, hmerged]
    constructor
    · exact Or.imp And.left And.left
    · refine Or.imp (fun hc => ⟨hc, fun hpassed => ?_⟩) fun hc => ⟨hc, fun hpassed => ?_⟩
      · rw [hA hpassed] at hc
        exact List.not_mem_nil hc
      · rw [hB hpassed] at hc
        exact List.not_mem_nil hc

/-- A comparison that leads nowhere else. -/
def aside : List Block := [compareBlock 0x200 [] 0x200 9 0x9000]

/-- Both the chain of three cases and the comparison have a natural head. -/
theorem threeCases_beside_aside :
    ((threeCases ++ aside).map (·.start)).Nodup ∧ SitesDistinct (threeCases ++ aside) ∧
      Unrelated threeCases aside ∧ findDispatchCandidates (threeCases ++ aside) {} =
        Cxx.sort siteLess
          (findDispatchCandidates threeCases {} ++ findDispatchCandidates aside {}) := by
  have hdistinct : ((threeCases ++ aside).map (·.start)).Nodup := by decide
  have hsites : SitesDistinct (threeCases ++ aside) := by
    unfold SitesDistinct
    decide
  have hrelated : Unrelated threeCases aside := by
    unfold Unrelated
    decide
  refine ⟨hdistinct, hsites, hrelated, ?_⟩
  refine (candidates_local_iff threeCases aside {} hdistinct hsites hrelated).2 ⟨?_, ?_⟩
  · exact fun h => absurd h.1 (by decide)
  · exact fun h => absurd h.1 (by decide)

/-- Three cases; where the last comparison fails, it goes back to the first. -/
def circle : List Block :=
  [compareBlock 0x100 [] 0x100 1 0x1000, compareBlock 0x106 [] 0x106 2 0x2000,
   { start := 0x10c, successors := [0x100, 0x112]
     instructions :=
       [{ address := 0x10c, size := 4, kind := .compareImmediate, destinationRegister := 1
          valueWidth := 4, immediate := 3, flagEffect := .knownCompare },
        { address := 0x110, size := 2, kind := .conditionalBranch, condition := .notZero
          target := 0x100, flagEffect := .preserve }] }]

/-- Every exit of one list misses the blocks of the other. -/
def ExitsMiss (A B : List Block) : Prop :=
  ∀ a ∈ A, ∀ b ∈ B, ∀ insn ∈ a.instructions, insn.target ≠ b.start ∧ insn.endAddress ≠ b.start

/-- The circle is a dispatcher by itself and is not found beside the comparison. -/
theorem aside_hides_circle :
    ((circle ++ aside).map (·.start)).Nodup ∧ SitesDistinct (circle ++ aside) ∧
      Unrelated circle aside ∧ ExitsMiss circle aside ∧ ExitsMiss aside circle ∧
      findDispatchCandidates (circle ++ aside) {} ≠
        Cxx.sort siteLess
          (findDispatchCandidates circle {} ++ findDispatchCandidates aside {}) := by
  unfold SitesDistinct Unrelated ExitsMiss
  refine ⟨by decide, by decide, by decide, by decide, by decide, fun heq => ?_⟩
  have hlength := congrArg List.length heq
  revert hlength
  decide

end Viy.Deobf
