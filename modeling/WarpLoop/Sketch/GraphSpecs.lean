import Mathlib.Data.List.Chain
import WarpLoop.Lib.Components
import WarpLoop.Sketch.FitSpecs
import WarpLoop.Sketch.Graph

/-! What the sketch graph is: nodes that are apart, every stroke a walk from cut to cut, and
counts of its components and its loops that are the ones of the graph. -/
namespace WarpLoop.Sketch.Graph
open Lib.Components Lib.Insertion

/-! Nodes. -/

def Apart (nodes : List GraphNode) : Prop := nodes.Pairwise (fun a b => ¬ Vec3.distance a.pos b.pos < NODE_EPS)

/-- The node stands at the point, or near enough to stand for it. -/
def Near (nodes : List GraphNode) (p : Vec3) (id : Nat) : Prop :=
  ∃ node, nodes[id]? = some node ∧ (node.pos = p ∨ Vec3.distance node.pos p < NODE_EPS)

theorem Near.lt {nodes : List GraphNode} {p : Vec3} {id : Nat} (near : Near nodes p id) : id < nodes.length := by
  obtain ⟨node,here,_⟩ := near
  exact (List.getElem?_eq_some_iff.mp here).1

theorem Near.mono {nodes more : List GraphNode} {p : Vec3} {id : Nat} (grows : nodes <+: more) (near : Near nodes p id) : Near more p id := by
  have inside := near.lt
  obtain ⟨node,here,close⟩ := near
  obtain ⟨rest,rfl⟩ := grows
  exact ⟨node,by rwa [List.getElem?_append_left inside],close⟩

theorem internNode_spec (nodes : List GraphNode) (p : Vec3) (apart : Apart nodes) :
    nodes <+: (internNode nodes p).1 ∧ Apart (internNode nodes p).1 ∧ Near (internNode nodes p).1 p (internNode nodes p).2 := by
  unfold internNode
  split
  case h_1 i found =>
    obtain ⟨inside,close,_⟩ := List.findIdx?_eq_some_iff_getElem.mp found
    exact ⟨List.prefix_refl nodes,apart,nodes[i],List.getElem?_eq_getElem inside,Or.inr (by simpa using close)⟩
  case h_2 missing =>
    have far := List.findIdx?_eq_none_iff.mp missing
    refine ⟨List.prefix_append nodes _,?_,⟨p⟩,by simp,Or.inl rfl⟩
    refine List.pairwise_append.mpr ⟨apart,List.pairwise_singleton _ _,?_⟩
    intro a member b new
    rw [List.mem_singleton.mp new]
    simpa using far a member

/-! Cuts. -/

/-- A span that is long enough to be a segment. -/
abbrev Long (s t : Float) : Prop := t - s > 0.5

theorem keepParam_chain {dedup : List Float} (chain : dedup.IsChain Long) (p : Float) : (keepParam dedup p).IsChain Long := by
  unfold keepParam
  split
  case isTrue long =>
    refine List.isChain_append.mpr ⟨chain,List.IsChain.singleton p,?_⟩
    intro last atEnd first start
    obtain rfl : p = first := Option.some.inj start
    have some : dedup.length ≠ 0 := by
      rintro empty
      rw [List.length_eq_zero_iff.mp empty] at atEnd
      contradiction
    have same : dedup[dedup.length-1]! = last := Fit.getElem!_last_of_getLast? atEnd
    simpa [some,same] using long
  case isFalse => exact chain

theorem keepParam_ne_nil (dedup : List Float) (p : Float) : keepParam dedup p ≠ [] := by
  unfold keepParam
  cases dedup with
  | nil => simp
  | cons first rest => split <;> simp

/-- The cuts of a stroke are so far from each other that every span between two is a segment. -/
theorem canonicalParams_spec {ps : List Float} (nonempty : ps ≠ []) :
    canonicalParams ps ≠ [] ∧ (canonicalParams ps).IsChain Long := by
  have chain (rest : List Float) : ∀ dedup : List Float, dedup.IsChain Long → (rest.foldl keepParam dedup).IsChain Long := by
    induction rest with
    | nil => exact fun _ chain => chain
    | cons p rest ih => exact fun dedup chain => ih _ (keepParam_chain chain p)
  refine ⟨?_,chain _ [] List.IsChain.nil⟩
  have sorted : sortLoop (fun p q => decide (p < q)) ps ≠ [] := fun empty =>
    nonempty (List.Perm.nil_eq (empty ▸ sortLoop_perm ps)).symm
  obtain ⟨before,last,split⟩ := List.eq_nil_or_concat (sortLoop (fun p q => decide (p < q)) ps) |>.resolve_left sorted
  rw [canonicalParams,split,List.concat_eq_append,List.foldl_append]
  exact keepParam_ne_nil _ last

theorem splitParams_spec (polys : List (List Vec3)) (i : Nat) :
    splitParams polys i ≠ [] ∧ (splitParams polys i).IsChain Long := by
  apply canonicalParams_spec
  have grows (js : List Nat) : ∀ params : List Float, params ≠ [] →
      js.foldl (fun rawParams j => if j ≠ i then rawParams ++ crossingParams polys[i]! polys[j]! else rawParams) params ≠ [] := by
    induction js with
    | nil => exact fun _ some => some
    | cons j js ih =>
      intro params some
      refine ih _ ?_
      dsimp only
      split <;> simp [some]
  exact grows _ _ (List.cons_ne_nil _ _)

/-! Strokes as walks. -/

/-- The segments of a walk of a stroke along its nodes. -/
def spans (i : Nat) (ids : List Nat) : List GraphSegment := List.zipWith (GraphSegment.mk i) ids ids.tail

theorem spans_cons (i prev id : Nat) (ids : List Nat) : spans i (prev::id::ids) = ⟨i,prev,id⟩ :: spans i (id::ids) := rfl

/-- What is left of a stroke after a cut adds the walk from the node of that cut. -/
theorem cuts_spec (i : Nat) (poly : List Vec3) (ts : List Float) {b : Building} (apart : Apart b.nodes) {prev : Nat} {prevT : Float}
    (started : b.prevNode = some (prev,prevT)) (chain : (prevT::ts).IsChain Long) :
    ∃ ids, b.nodes <+: (ts.foldl (cut i poly) b).nodes ∧ Apart (ts.foldl (cut i poly) b).nodes ∧
      (ts.foldl (cut i poly) b).segments = b.segments ++ spans i (prev::ids) ∧
      List.Forall₂ (fun t id => Near (ts.foldl (cut i poly) b).nodes (polyAt poly t) id) ts ids := by
  induction ts generalizing b prev prevT with
  | nil => exact ⟨[],List.prefix_refl _,apart,by simp [spans],List.Forall₂.nil⟩
  | cons t ts ih =>
    obtain ⟨long,chain⟩ := List.isChain_cons_cons.mp chain
    obtain ⟨grows,apart',near⟩ := internNode_spec b.nodes (polyAt poly t) apart
    have next : cut i poly b t = ⟨(internNode b.nodes (polyAt poly t)).1,
        b.segments ++ [⟨i,prev,(internNode b.nodes (polyAt poly t)).2⟩],some ((internNode b.nodes (polyAt poly t)).2,t)⟩ := by
      unfold cut
      rw [started]
      simp only [if_pos long]
    rw [List.foldl_cons,next]
    obtain ⟨ids,more,apart'',segments,nears⟩ := ih (b := ⟨(internNode b.nodes (polyAt poly t)).1,
      b.segments ++ [⟨i,prev,(internNode b.nodes (polyAt poly t)).2⟩],some ((internNode b.nodes (polyAt poly t)).2,t)⟩)
      apart' rfl chain
    refine ⟨(internNode b.nodes (polyAt poly t)).2::ids,grows.trans more,apart'',?_,List.Forall₂.cons (near.mono more) nears⟩
    rw [segments,spans_cons,List.append_assoc]
    rfl

/-- A stroke is cut where its polyline has two points at least. -/
def cuts (polys : List (List Vec3)) (i : Nat) : List Float := if polys[i]!.length < 2 then [] else splitParams polys i

theorem cuts_chain (polys : List (List Vec3)) (i : Nat) : (cuts polys i).IsChain Long := by
  unfold cuts
  split
  · exact List.IsChain.nil
  · exact (splitParams_spec polys i).2

/-- A stroke adds the walk along the nodes of its cuts. -/
theorem addStroke_spec (polys : List (List Vec3)) {built : List GraphNode × List GraphSegment} (apart : Apart built.1) (i : Nat) :
    ∃ ids, built.1 <+: (addStroke polys built i).1 ∧ Apart (addStroke polys built i).1 ∧
      (addStroke polys built i).2 = built.2 ++ spans i ids ∧
      List.Forall₂ (fun t id => Near (addStroke polys built i).1 (polyAt polys[i]! t) id) (cuts polys i) ids := by
  by_cases short : polys[i]!.length < 2
  · rw [show addStroke polys built i = built from if_pos short,cuts,if_pos short]
    exact ⟨[],List.prefix_refl _,apart,by simp [spans],List.Forall₂.nil⟩
  · obtain ⟨nonempty,chain⟩ := splitParams_spec polys i
    obtain ⟨t,ts,params⟩ := List.exists_cons_of_ne_nil nonempty
    obtain ⟨grows,apart',near⟩ := internNode_spec built.1 (polyAt polys[i]! t) apart
    have added : addStroke polys built i =
        ((ts.foldl (cut i polys[i]!) (cut i polys[i]! ⟨built.1,built.2,none⟩ t)).nodes,
          (ts.foldl (cut i polys[i]!) (cut i polys[i]! ⟨built.1,built.2,none⟩ t)).segments) := by
      rw [addStroke,if_neg short,params]
      rfl
    have first : cut i polys[i]! ⟨built.1,built.2,none⟩ t = ⟨(internNode built.1 (polyAt polys[i]! t)).1,built.2,
        some ((internNode built.1 (polyAt polys[i]! t)).2,t)⟩ := rfl
    rw [added,first,cuts,if_neg short,params]
    rw [params] at chain
    obtain ⟨ids,more,apart'',segments,nears⟩ := cuts_spec i polys[i]! ts (b := ⟨(internNode built.1 (polyAt polys[i]! t)).1,built.2,
      some ((internNode built.1 (polyAt polys[i]! t)).2,t)⟩) apart' rfl chain
    exact ⟨(internNode built.1 (polyAt polys[i]! t)).2::ids,grows.trans more,apart'',segments,List.Forall₂.cons (near.mono more) nears⟩

theorem addStrokes_spec (polys : List (List Vec3)) (k : Nat) :
    Apart ((List.range k).foldl (addStroke polys) ([],[])).1 ∧ ∃ ids : Nat → List Nat,
      ((List.range k).foldl (addStroke polys) ([],[])).2 = (List.range k).flatMap (fun i => spans i (ids i)) ∧
      ∀ i < k, List.Forall₂ (fun t id => Near ((List.range k).foldl (addStroke polys) ([],[])).1 (polyAt polys[i]! t) id)
        (cuts polys i) (ids i) := by
  induction k with
  | zero => exact ⟨List.Pairwise.nil,fun _ => [],rfl,fun i below => absurd below (Nat.not_lt_zero i)⟩
  | succ k ih =>
    obtain ⟨apart,ids,segments,nears⟩ := ih
    rw [List.range_succ,List.foldl_append,List.foldl_cons,List.foldl_nil]
    generalize (List.range k).foldl (addStroke polys) ([],[]) = built at apart segments nears ⊢
    obtain ⟨new,grows,apart',added,near⟩ := addStroke_spec polys apart k
    refine ⟨apart',Function.update ids k new,?_,?_⟩
    · have kept : (List.range k).flatMap (fun i => spans i (Function.update ids k new i)) = (List.range k).flatMap (fun i => spans i (ids i)) := by
        refine List.flatMap_congr fun i below => ?_
        rw [Function.update_of_ne (Nat.ne_of_lt (List.mem_range.mp below))]
      rw [added,segments,List.flatMap_append,kept,List.flatMap_singleton,Function.update_self]
    · intro i below
      by_cases last : i = k
      · subst last
        rwa [Function.update_self]
      · rw [Function.update_of_ne last]
        exact (nears i (by omega)).imp (fun t id near => near.mono grows)

/-- Every stroke is a walk with a node for each of its cuts and a segment for each two cuts in a row. -/
theorem build_walks (strokes : List Stroke) :
    Apart (build strokes).nodes ∧ ∃ ids : Nat → List Nat,
      (build strokes).segments = (List.range strokes.length).flatMap (fun i => spans i (ids i)) ∧
      ∀ i < strokes.length, (cuts (build strokes).polylines i).IsChain Long ∧
        List.Forall₂ (fun t id => Near (build strokes).nodes (polyAt (build strokes).polylines[i]! t) id)
          (cuts (build strokes).polylines i) (ids i) := by
  obtain ⟨apart,ids,segments,nears⟩ := addStrokes_spec (strokes.map polyline) strokes.length
  have built : build strokes = ⟨((List.range strokes.length).foldl (addStroke (strokes.map polyline)) ([],[])).1,
      ((List.range strokes.length).foldl (addStroke (strokes.map polyline)) ([],[])).2,strokes.map polyline⟩ := by
    rw [build,List.length_map]
  rw [built]
  exact ⟨apart,ids,segments,fun i below => ⟨cuts_chain _ i,nears i below⟩⟩

/-! Components and loops. -/

def InRange (g : SketchGraph) : Prop := ∀ s ∈ g.segments, s.nodeA < g.nodes.length ∧ s.nodeB < g.nodes.length

theorem spans_mem {i : Nat} {ids : List Nat} {s : GraphSegment} (member : s ∈ spans i ids) : s.nodeA ∈ ids ∧ s.nodeB ∈ ids := by
  obtain ⟨k,inside,rfl⟩ := List.mem_iff_getElem.mp member
  simp only [spans,List.getElem_zipWith]
  exact ⟨List.getElem_mem _,List.mem_of_mem_tail (List.getElem_mem _)⟩

theorem build_inRange (strokes : List Stroke) : InRange (build strokes) := by
  obtain ⟨_,ids,segments,nears⟩ := build_walks strokes
  intro s member
  rw [segments] at member
  obtain ⟨i,below,span⟩ := List.mem_flatMap.mp member
  have inside : ∀ id ∈ ids i, id < (build strokes).nodes.length := by
    intro id used
    obtain ⟨k,place,rfl⟩ := List.mem_iff_getElem.mp used
    obtain ⟨size,near⟩ := List.forall₂_iff_get.mp (nears i (List.mem_range.mp below)).2
    exact (near k (by omega) place).lt
  exact ⟨inside _ (spans_mem span).1,inside _ (spans_mem span).2⟩

/-- The graph of some strokes: no node is near one that was there before it, every stroke is a walk with a node
for each of its cuts and a segment for each two cuts in a row, and every segment joins two of the nodes. -/
theorem build_spec (strokes : List Stroke) :
    Apart (build strokes).nodes ∧ InRange (build strokes) ∧ ∃ ids : Nat → List Nat,
      (build strokes).segments = (List.range strokes.length).flatMap (fun i => spans i (ids i)) ∧
      ∀ i < strokes.length, (cuts (build strokes).polylines i).IsChain Long ∧
        List.Forall₂ (fun t id => Near (build strokes).nodes (polyAt (build strokes).polylines[i]! t) id)
          (cuts (build strokes).polylines i) (ids i) := by
  obtain ⟨apart,walks⟩ := build_walks strokes
  exact ⟨apart,build_inRange strokes,walks⟩

section Forest
variable {n : Nat} {parent : List Nat}

def ends {s : GraphSegment} (inside : s.nodeA < n ∧ s.nodeB < n) : Fin n × Fin n := (⟨s.nodeA,inside.1⟩,⟨s.nodeB,inside.2⟩)

/-- The list of parents is a forest whose trees are the components of the edges. -/
def Keeps (parent : List Nat) (edges : List (Fin n × Fin n)) : Prop :=
  ∃ up : Fin n → Fin n, parent.length = n ∧ (∀ i : Fin n, parent[i.val]! = (up i).val) ∧ Represents up edges

theorem walk_eq {up : Fin n → Fin n} (table : ∀ i : Fin n, parent[i.val]! = (up i).val) (i : Fin n) :
    walk parent n i.val = (up^[n] i).val := by
  have steps (rounds : List Nat) : ∀ i : Fin n,
      rounds.foldl (fun r _ => if parent[r]! ≠ r then parent[r]! else r) i.val = (up^[rounds.length] i).val := by
    induction rounds with
    | nil => exact fun _ => rfl
    | cons _ rounds ih =>
      intro i
      have step : (if parent[i.val]! ≠ i.val then parent[i.val]! else i.val) = (up i).val := by
        rw [table]
        split
        case isTrue => rfl
        case isFalse same => exact (not_not.mp same).symm
      rw [List.foldl_cons,step,ih,List.length_cons,Function.iterate_succ_apply]
  have rounds := steps (List.range n) i
  rwa [List.length_range] at rounds

theorem Keeps.join {edges : List (Fin n × Fin n)} (keeps : Keeps parent edges) {s : GraphSegment} (inside : s.nodeA < n ∧ s.nodeB < n) :
    Keeps (joinRoots n parent s) (edges ++ [ends inside]) := by
  obtain ⟨up,size,table,forest⟩ := keeps
  obtain ⟨ra,left⟩ := forest.reaches ⟨s.nodeA,inside.1⟩
  obtain ⟨rb,right⟩ := forest.reaches ⟨s.nodeB,inside.2⟩
  have toA := walk_eq table ⟨s.nodeA,inside.1⟩
  have toB := walk_eq table ⟨s.nodeB,inside.2⟩
  have finalA := left.iterate_card
  have finalB := right.iterate_card
  rw [Fintype.card_fin] at finalA finalB
  rw [finalA] at toA
  rw [finalB] at toB
  simp only [joinRoots,toA,toB]
  by_cases same : ra = rb
  · subst same
    rw [if_neg (by simp)]
    exact ⟨up,size,table,forest.same left right⟩
  · rw [if_pos (fun equal => same (Fin.ext equal))]
    refine ⟨Function.update up rb ra,by rw [List.length_set,size],?_,forest.link left right same⟩
    intro i
    have below : i.val < (parent.set rb.val ra.val).length := by rw [List.length_set,size]; exact i.isLt
    rw [getElem!_pos (parent.set rb.val ra.val) i.val below,List.getElem_set]
    by_cases here : i = rb
    · rw [if_pos (congrArg Fin.val here.symm),here,Function.update_self]
    · rw [if_neg (fun equal => here (Fin.ext equal.symm)),Function.update_of_ne here,← table i,
        getElem!_pos parent i.val (by rw [size]; exact i.isLt)]

theorem keeps_run (n : Nat) (segments : List GraphSegment) (inside : ∀ s ∈ segments, s.nodeA < n ∧ s.nodeB < n) :
    Keeps (segments.foldl (joinRoots n) (List.range n)) (segments.pmap (fun _ => ends) inside) := by
  induction segments using List.reverseRecOn with
  | nil => exact ⟨id,List.length_range,fun i => by simp,represents_id⟩
  | append_singleton segments s ih =>
    have before : ∀ s ∈ segments, s.nodeA < n ∧ s.nodeB < n := fun s member => inside s (List.mem_append_left _ member)
    rw [List.foldl_append,List.pmap_append]
    exact (ih before).join (inside s (List.mem_append_right _ List.mem_cons_self))

theorem Keeps.count {edges : List (Fin n × Fin n)} (keeps : Keeps parent edges) :
    (List.range n).foldl (fun count i => if parent[i]! == i then count + 1 else count) 0 = components edges := by
  obtain ⟨up,size,table,forest⟩ := keeps
  have counted (l : List Nat) : ∀ count, l.foldl (fun count i => if parent[i]! == i then count + 1 else count) count =
      count + (l.filter (fun i => parent[i]! == i)).length := by
    induction l with
    | nil => exact fun _ => rfl
    | cons i l ih =>
      intro count
      rw [List.foldl_cons,ih,List.filter_cons]
      split
      · rw [List.length_cons]
        omega
      · rfl
  have roots : (Finset.univ.filter (fun i : Fin n => up i = i)).map Fin.valEmbedding =
      (Finset.range n).filter (fun i => (parent[i]! == i) = true) := by
    ext i
    simp only [Finset.mem_map,Finset.mem_filter,Finset.mem_univ,true_and,Finset.mem_range,Fin.valEmbedding_apply,beq_iff_eq]
    constructor
    · rintro ⟨i,root,rfl⟩
      exact ⟨i.isLt,by rw [table,root]⟩
    · rintro ⟨below,root⟩
      exact ⟨⟨i,below⟩,Fin.ext ((table ⟨i,below⟩).symm.trans root),rfl⟩
  rw [← forest.card_roots,Fintype.card_subtype,← Finset.card_map Fin.valEmbedding,roots,counted,Nat.zero_add]
  have card (p : Nat → Bool) : ((Finset.range n).filter (fun i => p i = true)).card = ((List.range n).filter p).length := by
    simp [Finset.card,Finset.filter,Multiset.range]
  exact (card _).symm

end Forest

def edges (g : SketchGraph) (inside : InRange g) : List (Fin g.nodes.length × Fin g.nodes.length) :=
  g.segments.pmap (fun _ => ends) inside

/-- The two counts: the components of the graph, and the segments that close a loop with the ones before them. -/
theorem counts_eq (g : SketchGraph) (inside : InRange g) :
    componentCount g = components (edges g inside) ∧ cycleCount g = closing (edges g inside) := by
  have parts : componentCount g = components (edges g inside) := by
    have counted : _ = components (edges g inside) := (keeps_run g.nodes.length g.segments inside).count
    unfold componentCount
    dsimp only
    split_ifs with empty
    · rw [← counted,empty]
      rfl
    · exact counted
  have balance := closing_add_card (edges g inside)
  rw [Fintype.card_fin,← parts,show (edges g inside).length = g.segments.length from List.length_pmap] at balance
  refine ⟨parts,?_⟩
  simp only [cycleCount]
  rw [if_pos (by omega)]
  omega

/-- A closed square of four nodes, with a fifth node beside it. -/
def square : SketchGraph := ⟨List.replicate 5 ⟨Vec3.zero⟩,[⟨0,0,1⟩,⟨0,1,2⟩,⟨0,2,3⟩,⟨0,3,0⟩],[]⟩

example : componentCount square = 2 ∧ cycleCount square = 1 := by decide

/-- The counts of the graph of some strokes. -/
theorem build_counts (strokes : List Stroke) :
    componentCount (build strokes) = components (edges (build strokes) (build_inRange strokes)) ∧
      cycleCount (build strokes) = closing (edges (build strokes) (build_inRange strokes)) :=
  counts_eq (build strokes) (build_inRange strokes)

end WarpLoop.Sketch.Graph
