import Mathlib.Data.List.Chain
import Mathlib.Data.List.Sort
import WarpLoop.Sketch.Fit

/-! What the simplification keeps of a polyline, and the curve that is fitted to what it
keeps: one piece after the other without a gap, from the first point to the last. -/
namespace WarpLoop.Sketch.Fit
open Lib.Floats

/-! The simplification. -/

/-- No point between the two is farther from their line than the tolerance. -/
def Close (pts : List Vec3) (eps : Tolerance) (lo hi : Nat) : Prop :=
  ∀ i, lo < i → i < hi → ¬ Vec3.distToLine pts[i]! pts[lo]! pts[hi]! > eps.value

theorem close_of_farthest {pts : List Vec3} {eps : Tolerance} {lo hi : Nat}
    (near : ¬ (farthest pts lo hi).1 > eps.value) : Close pts eps lo hi := by
  intro i lower upper beyond
  apply near
  have number : (0.0 : Float).isNaN = false := by decide
  refine lt_greatest number (Or.inr ⟨i,?_,beyond⟩)
  rw [List.mem_range'_1]
  omega

theorem rdpSpan_chain (pts : List Vec3) (eps : Tolerance) {lo hi : Nat} (order : lo < hi) :
    (lo :: rdpSpan pts eps lo hi ++ [hi]).IsChain (fun lo hi => lo < hi ∧ Close pts eps lo hi) := by
  induction lo, hi using rdpSpan.induct pts eps with
  | case1 lo hi adjacent =>
    rw [rdpSpan,if_pos adjacent]
    refine List.isChain_pair.mpr ⟨order,?_⟩
    intro i lower upper
    omega
  | case2 lo hi wide beyond first second =>
    obtain ⟨lower,upper⟩ := farthest_inside beyond
    rw [rdpSpan,if_neg wide,dif_pos beyond]
    have left := first lower
    have right := second upper
    rw [List.cons_append] at left right
    simp only [List.cons_append,List.append_assoc,List.nil_append]
    rw [← List.cons_append,List.isChain_split]
    exact ⟨left,right⟩
  | case3 lo hi wide near =>
    rw [rdpSpan,if_neg wide,dif_neg near]
    exact List.isChain_pair.mpr ⟨order,close_of_farthest near⟩

/-- The kept indices go up from the first to the last, and what is dropped between two of them is
close to their line. -/
theorem rdpReduce_chain (pts : List Vec3) (eps : Tolerance) :
    (rdpReduce pts eps).head? = (List.range pts.length).head? ∧ (rdpReduce pts eps).getLast? = (List.range pts.length).getLast? ∧
      (rdpReduce pts eps).IsChain (fun lo hi => lo < hi ∧ Close pts eps lo hi) := by
  unfold rdpReduce
  split_ifs with empty single short
  · rw [empty]
    exact ⟨rfl,rfl,List.IsChain.nil⟩
  · rw [single]
    exact ⟨rfl,rfl,List.IsChain.singleton 0⟩
  · have two : pts.length = 2 := by omega
    rw [two]
    refine ⟨rfl,rfl,List.isChain_pair.mpr ⟨Nat.one_pos,?_⟩⟩
    intro i lower upper
    omega
  · have first : (List.range pts.length).head? = some 0 := by rw [List.head?_range,if_neg empty]
    have last : (List.range pts.length).getLast? = some (pts.length - 1) := by rw [List.getLast?_range,if_neg empty]
    refine ⟨by rw [first]; rfl,by rw [last,List.getLast?_concat],?_⟩
    exact rdpSpan_chain pts eps (show 0 < pts.length - 1 by omega)

theorem rdpReduce_sorted (pts : List Vec3) (eps : Tolerance) : (rdpReduce pts eps).Pairwise (· < ·) :=
  List.isChain_iff_pairwise.mp ((rdpReduce_chain pts eps).2.2.imp (fun _ _ step => step.1))

/-! The curve. -/

/-- The pieces lead from one point to another without a gap. -/
def Leads : Vec3 → List CubicBezier → Vec3 → Prop
  | a, [], b => a = b
  | a, piece :: rest, b => piece.p0 = a ∧ Leads piece.p3 rest b

theorem leads_append {a b c : Vec3} {first second : List CubicBezier} (before : Leads a first b) (after : Leads b second c) :
    Leads a (first ++ second) c := by
  induction first generalizing a with
  | nil =>
    obtain rfl : a = b := before
    exact after
  | cons piece rest ih => exact ⟨before.1,ih before.2⟩

theorem generateBezier_ends (pts : List Vec3) (u : List Float) (tanA tanB : Vec3) (long : 2 ≤ pts.length) :
    (generateBezier pts u tanA tanB).p0 = pts[0]! ∧ (generateBezier pts u tanA tanB).p3 = pts[pts.length-1]! := by
  unfold generateBezier
  rw [if_neg (by omega)]
  dsimp only
  split <;> exact ⟨rfl,rfl⟩

theorem refine_ends {pts : List Vec3} {tanA tanB : Vec3} {err : Float} (long : 2 ≤ pts.length) {rounds : Nat}
    {b good : CubicBezier} {u : List Float} (found : refine pts tanA tanB err rounds b u = .inl good) :
    good.p0 = pts[0]! ∧ good.p3 = pts[pts.length-1]! := by
  induction rounds generalizing b u with
  | zero => contradiction
  | succ rounds ih =>
    rw [refine] at found
    split at found
    case isTrue =>
      obtain rfl := Sum.inl.inj found
      exact generateBezier_ends pts _ tanA tanB long
    case isFalse => exact ih found

theorem fitOnce_ends {pts : List Vec3} {tanA tanB : Vec3} {err : Float} (long : 2 ≤ pts.length) {good : CubicBezier}
    (found : fitOnce pts tanA tanB err = .inl good) : good.p0 = pts[0]! ∧ good.p3 = pts[pts.length-1]! := by
  unfold fitOnce at found
  dsimp only at found
  split at found
  case isTrue =>
    obtain rfl := Sum.inl.inj found
    exact generateBezier_ends pts _ tanA tanB long
  case isFalse =>
    split at found
    case h_1 b refined =>
      obtain rfl := Sum.inl.inj found
      split at refined
      case isTrue => exact refine_ends long refined
      case isFalse => contradiction
    case h_2 => contradiction

/-- The pieces of a fit join at points of the run, in its order. -/
def Follows (pts : List Vec3) (pieces : List CubicBezier) : Prop :=
  pieces ≠ [] ∧ Leads pts[0]! pieces pts[pts.length-1]! ∧ (pieces.map CubicBezier.p3).Sublist pts.tail

theorem follows_single {pts : List Vec3} (long : 2 ≤ pts.length) {piece : CubicBezier} (start : piece.p0 = pts[0]!)
    (stop : piece.p3 = pts[pts.length-1]!) : Follows pts [piece] := by
  refine ⟨List.cons_ne_nil _ _,⟨start,stop⟩,?_⟩
  rw [List.map_singleton,List.singleton_sublist,stop,getElem!_pos pts _ (show pts.length - 1 < pts.length by omega),
    List.mem_iff_getElem]
  refine ⟨pts.length - 2,by rw [List.length_tail]; omega,?_⟩
  rw [List.getElem_tail]
  congr 1
  omega

theorem getElem!_zero_of_head? {α : Type} [Inhabited α] {l : List α} {a : α} (head : l.head? = some a) : l[0]! = a := by
  cases l with
  | nil => contradiction
  | cons b rest => exact Option.some.inj head

theorem getElem!_last_of_getLast? {α : Type} [Inhabited α] {l : List α} {a : α} (last : l.getLast? = some a) : l[l.length-1]! = a := by
  rw [List.getLast?_eq_getElem?] at last
  exact List.getElem!_of_getElem? last

theorem follows_append {pts : List Vec3} {s : Nat} (inside : s + 1 < pts.length) {first second : List CubicBezier}
    (left : Follows (pts.take (s + 1)) first) (right : Follows (pts.drop s) second) : Follows pts (first ++ second) := by
  have size : (pts.take (s + 1)).length - 1 = s := by
    rw [List.length_take]
    omega
  have start : (pts.take (s + 1))[0]! = pts[0]! := by simp
  have joint : (pts.take (s + 1))[(pts.take (s + 1)).length-1]! = (pts.drop s)[0]! := by
    rw [size]
    simp
  have stop : (pts.drop s)[(pts.drop s).length-1]! = pts[pts.length-1]! := by
    have place : s + (pts.length - s - 1) = pts.length - 1 := by omega
    simp [place]
  refine ⟨by simp [left.1],?_,?_⟩
  · have before := left.2.1
    have after := right.2.1
    rw [start,joint] at before
    rw [stop] at after
    exact leads_append before after
  · have rest : pts.tail = (pts.take (s + 1)).tail ++ (pts.drop s).tail := by
      rw [List.tail_drop,← List.drop_one,← List.drop_one,List.drop_take,Nat.add_sub_cancel]
      conv_lhs => rw [← List.take_append_drop s (pts.drop 1),List.drop_drop]
      rw [Nat.add_comm 1 s]
    rw [List.map_append,rest]
    exact left.2.2.append right.2.2

theorem fitRecursive_follows (pts : List Vec3) (tanA tanB : Vec3) (err : Float) (long : 2 ≤ pts.length) :
    Follows pts (fitRecursive pts tanA tanB err) := by
  induction size : pts.length using Nat.strong_induction_on generalizing pts tanA tanB with
  | _ n ih =>
    subst size
    rw [fitRecursive]
    dsimp only
    rw [if_neg (by omega)]
    split_ifs with two three
    · exact follows_single long rfl (by rw [two])
    · exact follows_single long rfl (by rw [three])
    · cases fit : fitOnce pts tanA tanB err with
      | inl b =>
        obtain ⟨start,stop⟩ := fitOnce_ends long fit
        exact follows_single long start stop
      | inr worst =>
        obtain ⟨positive,inside⟩ := inner_inside worst (show 4 ≤ pts.length by omega)
        have shorter : (pts.take (inner pts.length worst + 1)).length = inner pts.length worst + 1 := by
          rw [List.length_take]
          omega
        have later : (pts.drop (inner pts.length worst)).length = pts.length - inner pts.length worst := List.length_drop
        exact follows_append inside (ih _ (by omega) _ _ _ (by omega) rfl) (ih _ (by omega) _ _ _ (by omega) rfl)

theorem rdpReduce_ends {pts : List Vec3} (eps : Tolerance) (long : 2 ≤ pts.length) :
    (rdpReduce pts eps).head? = some 0 ∧ (rdpReduce pts eps).getLast? = some (pts.length - 1) := by
  obtain ⟨head,last,_⟩ := rdpReduce_chain pts eps
  rw [head,last,List.head?_range,List.getLast?_range,if_neg (by omega),if_neg (by omega)]
  exact ⟨rfl,rfl⟩

theorem rdpReduce_length {pts : List Vec3} (eps : Tolerance) (long : 2 ≤ pts.length) : 2 ≤ (rdpReduce pts eps).length := by
  obtain ⟨head,last⟩ := rdpReduce_ends eps long
  rcases keep : rdpReduce pts eps with _ | ⟨first,_ | ⟨second,rest⟩⟩
  · rw [keep] at head
    contradiction
  · rw [keep] at head last
    have zero : first = 0 := Option.some.inj head
    have top : first = pts.length - 1 := Option.some.inj last
    omega
  · simp

theorem rdpReduce_sublist {pts : List Vec3} (eps : Tolerance) (long : 2 ≤ pts.length) :
    (rdpReduce pts eps).Sublist (List.range pts.length) := by
  have sorted := rdpReduce_sorted pts eps
  refine List.sublist_of_subperm_of_pairwise (List.subperm_of_subset (sorted.imp Nat.ne_of_lt) ?_) sorted
    List.pairwise_lt_range
  intro i kept
  obtain ⟨before,split⟩ := List.getLast?_eq_some_iff.mp (rdpReduce_ends eps long).2
  rw [split] at sorted kept
  rw [List.mem_range]
  rcases List.mem_append.mp kept with earlier | last
  · have below := (List.pairwise_append.mp sorted).2.2 i earlier _ List.mem_cons_self
    omega
  · rw [List.mem_singleton] at last
    omega

/-- The simplification keeps the first point and the last, keeps the others in their order and none twice, and
drops between two kept points only what is close to the line through them. -/
theorem rdpReduce_spec (pts : List Vec3) (eps : Tolerance) :
    (rdpReduce pts eps).Sublist (List.range pts.length) ∧ (rdpReduce pts eps).head? = (List.range pts.length).head? ∧
      (rdpReduce pts eps).getLast? = (List.range pts.length).getLast? ∧ (rdpReduce pts eps).IsChain (Close pts eps) := by
  obtain ⟨head,last,chain⟩ := rdpReduce_chain pts eps
  refine ⟨?_,head,last,chain.imp (fun _ _ step => step.2)⟩
  by_cases long : 2 ≤ pts.length
  · exact rdpReduce_sublist eps long
  · have short : pts.length = 0 ∨ pts.length = 1 := by omega
    rcases short with empty | single
    · rw [rdpReduce,if_pos empty]
      exact List.nil_sublist _
    · rw [rdpReduce,if_neg (by omega),if_pos single,single]
      exact List.Sublist.refl _

theorem map_getElem!_range {α : Type} [Inhabited α] (pts : List α) : (List.range pts.length).map (fun i => pts[i]!) = pts := by
  apply List.ext_getElem
  · simp
  · intro i _ inside
    simp [inside]

/-- What follows the kept points follows the whole run. -/
theorem follows_kept {pts : List Vec3} (eps : Tolerance) (long : 2 ≤ pts.length) {pieces : List CubicBezier}
    (fit : Follows ((rdpReduce pts eps).map (fun i => pts[i]!)) pieces) : Follows pts pieces := by
  obtain ⟨head,last⟩ := rdpReduce_ends eps long
  obtain ⟨some,leads,joints⟩ := fit
  have start : ((rdpReduce pts eps).map (fun i => pts[i]!))[0]! = pts[0]! :=
    getElem!_zero_of_head? (by rw [List.head?_map,head]; rfl)
  have stop : ((rdpReduce pts eps).map (fun i => pts[i]!))[((rdpReduce pts eps).map (fun i => pts[i]!)).length-1]! =
      pts[pts.length-1]! := getElem!_last_of_getLast? (by rw [List.getLast?_map,last]; rfl)
  rw [start,stop] at leads
  have inner := ((rdpReduce_sublist eps long).map (fun i => pts[i]!)).tail
  rw [map_getElem!_range] at inner
  exact ⟨some,leads,joints.trans inner⟩

theorem removeDuplicates_loop (rest out : List Vec3) (prev : Vec3) :
    ∃ later, (rest.foldl (fun (out,prev) cur => if !(cur == prev) then (out ++ [cur],cur) else (out,prev)) (out,prev)).1 =
        out ++ later ∧ later.Sublist rest ∧ (prev :: later).IsChain (fun a b => (b == a) = false) := by
  induction rest generalizing out prev with
  | nil => exact ⟨[],by simp,List.nil_sublist _,List.IsChain.singleton prev⟩
  | cons cur rest ih =>
    rw [List.foldl_cons]
    by_cases same : (cur == prev) = true
    · simp only [same,Bool.not_true,Bool.false_eq_true,if_false]
      obtain ⟨later,result,part,chain⟩ := ih out prev
      exact ⟨later,result,part.cons cur,chain⟩
    · rw [Bool.not_eq_true] at same
      simp only [same,Bool.not_false,if_true]
      obtain ⟨later,result,part,chain⟩ := ih (out ++ [cur]) cur
      refine ⟨cur::later,by rw [result,List.append_assoc]; rfl,part.cons_cons cur,?_⟩
      exact List.isChain_cons_cons.mpr ⟨same,chain⟩

/-- Of points that are equal in a row the first is left. -/
theorem removeDuplicates_spec (pts : List Vec3) : (removeDuplicates pts).Sublist pts ∧ (removeDuplicates pts).head? = pts.head? ∧
    (removeDuplicates pts).IsChain (fun a b => (b == a) = false) := by
  unfold removeDuplicates
  split_ifs with short
  · refine ⟨List.Sublist.refl _,rfl,?_⟩
    rcases pts with _ | ⟨first,_ | ⟨second,rest⟩⟩
    · exact List.IsChain.nil
    · exact List.IsChain.singleton first
    · simp only [List.length_cons] at short
      omega
  · rcases pts with _ | ⟨first,rest⟩
    · simp at short
    · obtain ⟨later,result,part,chain⟩ := removeDuplicates_loop rest [first] first
      rw [show (first::rest)[0]! = first from rfl,List.tail_cons,result]
      exact ⟨part.cons_cons first,rfl,chain⟩

theorem fitCurve_follows (pts : List Vec3) (err : Float) (rdpErr : Tolerance) :
    if (removeDuplicates pts).length < 2 then fitCurve pts err rdpErr = []
    else Follows (removeDuplicates pts) (fitCurve pts err rdpErr) := by
  unfold fitCurve
  dsimp only
  generalize removeDuplicates pts = dedup
  split_ifs with short two tiny pair
  · rfl
  · exact follows_single (Nat.le_of_eq two.symm) rfl (by rw [two])
  · rw [List.length_map] at tiny
    have enough := rdpReduce_length rdpErr (Nat.not_lt.mp short)
    omega
  · exact follows_kept rdpErr (Nat.not_lt.mp short) (follows_single (Nat.le_of_eq pair.symm) rfl (by rw [pair]))
  · exact follows_kept rdpErr (Nat.not_lt.mp short) (fitRecursive_follows _ _ _ err (Nat.not_lt.mp tiny))

/-- The curve through the points of a stroke, none twice in a row: it starts at the first and ends
at the last, has no gap, and its pieces join at points of the stroke in their order. -/
theorem fitCurve_spec (pts : List Vec3) (err : Float) (rdpErr : Tolerance) :
    (removeDuplicates pts).Sublist pts ∧ (removeDuplicates pts).head? = pts.head? ∧
      (removeDuplicates pts).IsChain (fun a b => (b == a) = false) ∧
      if (removeDuplicates pts).length < 2 then fitCurve pts err rdpErr = []
      else Follows (removeDuplicates pts) (fitCurve pts err rdpErr) := by
  obtain ⟨part,head,chain⟩ := removeDuplicates_spec pts
  exact ⟨part,head,chain,fitCurve_follows pts err rdpErr⟩

end WarpLoop.Sketch.Fit
