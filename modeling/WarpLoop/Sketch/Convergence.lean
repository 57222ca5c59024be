import Mathlib.Data.List.Nodup
import WarpLoop.Sketch.Encode
import WarpLoop.Sketch.FitSpecs
import WarpLoop.Sketch.Strokes

/-! Convergence: the strokes of a log, and with them its graph, depend on which packets it holds
and not on the order in which they came. -/
namespace WarpLoop.Sketch.RoomHistory
open Lib.Insertion

/-! The groups of a log. -/

/-- The groups so far, keyed in the order of their first packets. -/
structure Grouped (ps : List StrokePacket) (grouped : List GroupKey × List (List StrokePacket)) : Prop where
  nodup : grouped.1.Nodup
  mem : ∀ k, k ∈ grouped.1 ↔ ∃ p ∈ ps, groupKey p = k
  groups : grouped.2 = grouped.1.map (fun k => ps.filter (fun p => groupKey p == k))

theorem push_loop (order : List GroupKey) (f : GroupKey → List StrokePacket) (gk : GroupKey) (p : StrokePacket) (n : Nat) (le : n ≤ order.length) :
    (List.range n).foldl (fun (groups,found) i =>
      if order[i]! == gk then (groups.set i (groups[i]! ++ [p]),true) else (groups,found)) (order.map f,false) =
      ((order.take n).map (fun k => if k = gk then f k ++ [p] else f k) ++ (order.drop n).map f,decide (gk ∈ order.take n)) := by
  induction n with
  | zero => simp
  | succ n ih =>
    have inside : n < order.length := le
    have size : ((order.take n).map (fun k => if k = gk then f k ++ [p] else f k)).length = n := by
      rw [List.length_map,List.length_take]
      omega
    rw [List.range_succ,List.foldl_append,ih (Nat.le_of_lt inside),List.foldl_cons,List.foldl_nil,
      getElem!_pos order n inside,List.drop_eq_getElem_cons inside,List.map_cons,List.take_succ_eq_append_getElem inside,List.map_append]
    generalize (order.take n).map (fun k => if k = gk then f k ++ [p] else f k) = done at size
    generalize order.take n = front
    generalize order[n] = k
    subst size
    by_cases here : k = gk
    · simp [here]
    · simp [here,Ne.symm here]

theorem addToGroup_spec {ps : List StrokePacket} {grouped : List GroupKey × List (List StrokePacket)} (holds : Grouped ps grouped)
    (p : StrokePacket) : Grouped (ps ++ [p]) (addToGroup grouped p) := by
  obtain ⟨order,groups⟩ := grouped
  obtain ⟨nodup,mem,same⟩ := holds
  dsimp only at nodup mem same
  subst same
  have pushed := push_loop order (fun k => ps.filter (fun p => groupKey p == k)) (groupKey p) p order.length (Nat.le_refl _)
  rw [List.take_length,List.drop_length,List.map_nil,List.append_nil] at pushed
  have filed : (fun k => if k = groupKey p then ps.filter (fun p => groupKey p == k) ++ [p] else ps.filter (fun p => groupKey p == k)) =
      fun k => (ps ++ [p]).filter (fun p => groupKey p == k) := by
    funext k
    rw [List.filter_append]
    by_cases same : k = groupKey p
    · simp [same]
    · simp [same,Ne.symm same]
  rw [filed] at pushed
  have keys : ∀ k, (∃ q ∈ ps ++ [p], groupKey q = k) ↔ k ∈ order ∨ k = groupKey p := by
    intro k
    simp only [mem,List.mem_append,List.mem_singleton,or_and_right,exists_or,exists_eq_left]
    exact or_congr_right eq_comm
  simp only [addToGroup,pushed]
  by_cases known : groupKey p ∈ order
  · simp only [known,decide_true,Bool.not_true,Bool.false_eq_true,if_false]
    exact ⟨nodup,fun k => by rw [keys,or_iff_left_of_imp (fun same => same ▸ known)],rfl⟩
  · simp only [known,decide_false,Bool.not_false,if_true]
    refine ⟨List.nodup_append.mpr ⟨nodup,List.nodup_singleton _,?_⟩,?_,?_⟩
    · intro k member k' new same
      rw [List.mem_singleton] at new
      exact known (new ▸ same ▸ member)
    · intro k
      rw [keys,List.mem_append,List.mem_singleton]
    · have none : ps.filter (fun q => groupKey q == groupKey p) = [] := by
        rw [List.filter_eq_nil_iff]
        intro q member same
        exact known ((mem _).mpr ⟨q,member,by simpa using same⟩)
      simp [none]

theorem grouped_run (ps : List StrokePacket) : Grouped ps (ps.foldl addToGroup ([],[])) := by
  induction ps using List.reverseRecOn with
  | nil => exact ⟨List.nodup_nil,by simp,rfl⟩
  | append_singleton ps p ih =>
    rw [List.foldl_append]
    exact addToGroup_spec ih p

/-! The order of the groups. -/

def code (k : GroupKey) : Nat := k.1.toNat * 2^32 + k.2.toNat

theorem code_inj {a b : GroupKey} (same : code a = code b) : a = b := by
  have lowA := a.2.toNat_lt
  have lowB := b.2.toNat_lt
  unfold code at same
  exact Prod.ext (UInt32.toNat.inj (by omega)) (UInt32.toNat.inj (by omega))

theorem keyBefore_iff (a b : GroupKey) : keyBefore a b = true ↔ code a < code b := by
  have lowA := a.2.toNat_lt
  have lowB := b.2.toNat_lt
  have same : a.1 = b.1 ↔ a.1.toNat = b.1.toNat := UInt32.toNat_inj.symm
  simp only [keyBefore,Bool.or_eq_true,Bool.and_eq_true,decide_eq_true_eq,beq_iff_eq,UInt32.lt_iff_toNat_lt,same,code]
  omega

/-- The packets of a history. -/
def decoded (h : RoomHistory) : List StrokePacket := h.packets.filterMap StrokePacket.decode

theorem strokes_eq (h : RoomHistory) : ∃ order : List GroupKey, order.Nodup ∧ (∀ k, k ∈ order ↔ ∃ p ∈ h.decoded, groupKey p = k) ∧
    h.strokes = (sortLoop keyBefore order).map (fun k => assemble k (h.decoded.filter (fun p => groupKey p == k))) := by
  obtain ⟨nodup,mem,groups⟩ := grouped_run h.decoded
  have loop : h.packets.foldl addPacket ([],[]) = h.decoded.foldl addToGroup ([],[]) := by
    rw [decoded,List.foldl_filterMap]
    congr 1
    funext grouped bytes
    rw [addPacket]
    cases StrokePacket.decode bytes <;> rfl
  generalize h.decoded.foldl addToGroup ([],[]) = grouped at nodup mem groups loop
  obtain ⟨order,groupsOf⟩ := grouped
  refine ⟨order,nodup,mem,?_⟩
  have indices : (List.range order.length).map (fun i => order[i]!) = order := Fit.map_getElem!_range order
  rw [← indices,← map_sortLoop (f := fun i => order[i]!) (fun i j => rfl),List.map_map,strokes,loop]
  dsimp only
  refine List.map_congr_left fun i chosen => ?_
  have inside : i < order.length := List.mem_range.mp ((sortLoop_perm _).mem_iff.mp chosen)
  rw [Function.comp_apply,show groupsOf = _ from groups]
  simp [inside]

/-! The packets decide. -/

theorem assemble_perm (k : GroupKey) {first second : List StrokePacket} (perm : first.Perm second)
    (distinct : (first.map (fun p => p.seq.toNat)).Nodup) : assemble k first = assemble k second := by
  have bySeq (p q : StrokePacket) : decide (p.seq < q.seq) = true ↔ p.seq.toNat < q.seq.toNat := by
    rw [decide_eq_true_iff,UInt16.lt_iff_toNat_lt]
  unfold assemble
  rw [sortLoop_eq_of_perm bySeq distinct perm]

/-- The strokes of two logs that hold the same packets, in whatever order. -/
theorem strokes_eq_of_perm {h h' : RoomHistory} (perm : h.decoded.Perm h'.decoded) (distinct : (h.decoded.map key).Nodup) :
    h.strokes = h'.strokes := by
  obtain ⟨order,nodup,mem,strokes⟩ := strokes_eq h
  obtain ⟨order',nodup',mem',strokes'⟩ := strokes_eq h'
  have sameKeys : order.Perm order' := by
    rw [List.perm_ext_iff_of_nodup nodup nodup']
    intro k
    rw [mem,mem']
    exact exists_congr fun p => and_congr_left fun _ => perm.mem_iff
  have sameOrder := sortLoop_eq_of_perm keyBefore_iff (nodup.map (fun _ _ => code_inj)) sameKeys
  rw [strokes,strokes',← sameOrder]
  refine List.map_congr_left fun k _ => assemble_perm k (perm.filter _) ?_
  refine (List.Nodup.filter _ distinct.of_map).map_on ?_
  intro p memberP q memberQ sameSeq
  obtain ⟨heldP,underP⟩ := List.mem_filter.mp memberP
  obtain ⟨heldQ,underQ⟩ := List.mem_filter.mp memberQ
  rw [beq_iff_eq] at underP underQ
  have group := Prod.mk.inj (underP.trans underQ.symm)
  exact List.inj_on_of_nodup_map distinct heldP heldQ
    (Prod.ext group.1 (Prod.ext group.2 (UInt16.toNat.inj sameSeq)))

/-! Replays. -/

/-- No key is used for two different packets. -/
abbrev KeyConsistent (log : List Bytes) : Prop :=
  ∀ a ∈ log, ∀ b ∈ log, (StrokePacket.decode a).isSome → (StrokePacket.decode a).map key = (StrokePacket.decode b).map key → a = b

/-- What the history of a log holds: of every key the packet that came first. -/
structure Logged (log : List Bytes) (h : RoomHistory) : Prop where
  held : ∀ b ∈ h.packets, b ∈ log
  seen : h.decoded.map key = h.seen
  distinct : h.seen.Nodup
  covers : ∀ b ∈ log, ∀ p, StrokePacket.decode b = some p → key p ∈ h.seen

theorem logged_apply {log : List Bytes} {h : RoomHistory} (logged : Logged log h) (b : Bytes) : Logged (log ++ [b]) (h.apply b).1 := by
  obtain ⟨held,seen,distinct,covers⟩ := logged
  have old : ∀ a ∈ h.packets, a ∈ log ++ [b] := fun a member => List.mem_append_left _ (held a member)
  unfold apply
  cases found : StrokePacket.decode b with
  | none =>
    refine ⟨old,seen,distinct,?_⟩
    intro a member p accepted
    rcases List.mem_append.mp member with before | last
    · exact covers a before p accepted
    · rw [List.mem_singleton.mp last,found] at accepted
      contradiction
  | some p =>
    dsimp only
    split
    case isTrue known =>
      refine ⟨old,seen,distinct,?_⟩
      intro a member q accepted
      rcases List.mem_append.mp member with before | last
      · exact covers a before q accepted
      · rw [List.mem_singleton.mp last,found] at accepted
        obtain rfl := Option.some.inj accepted
        exact List.contains_iff_mem.mp known
    case isFalse fresh =>
      have new : key p ∉ h.seen := fun member => fresh (List.contains_iff_mem.mpr member)
      refine ⟨?_,?_,?_,?_⟩
      · intro a member
        rcases List.mem_append.mp member with before | last
        · exact old a before
        · exact List.mem_append_right _ last
      · rw [decoded,List.filterMap_append,List.map_append,← seen,decoded]
        simp [found]
      · refine List.nodup_append.mpr ⟨distinct,List.nodup_singleton _,?_⟩
        intro k member k' last same
        rw [List.mem_singleton.mp last] at same
        exact new (same ▸ member)
      · intro a member q accepted
        rcases List.mem_append.mp member with before | last
        · exact List.mem_append_left _ (covers a before q accepted)
        · rw [List.mem_singleton.mp last,found] at accepted
          obtain rfl := Option.some.inj accepted
          exact List.mem_append_right _ List.mem_cons_self

theorem Logged.self {log : List Bytes} {h : RoomHistory} (logged : Logged log h) : Logged h.packets h where
  held _ member := member
  seen := logged.seen
  distinct := logged.distinct
  covers b member := logged.covers b (logged.held b member)

theorem replay_concat (log : List Bytes) (b : Bytes) : replay (log ++ [b]) = ((replay log).apply b).1 := by
  rw [replay,List.foldl_append]
  rfl

theorem logged_replay (log : List Bytes) : Logged log (replay log) := by
  induction log using List.reverseRecOn with
  | nil => exact ⟨by simp [replay,empty],rfl,List.nodup_nil,by simp⟩
  | append_singleton log b ih =>
    rw [replay_concat]
    exact logged_apply ih b

theorem mem_decoded {h : RoomHistory} {p : StrokePacket} : p ∈ h.decoded ↔ ∃ b ∈ h.packets, StrokePacket.decode b = some p :=
  List.mem_filterMap

/-- A log that was accepted uses no key twice. -/
theorem Logged.consistent {log : List Bytes} {h : RoomHistory} (logged : Logged log h) : KeyConsistent h.packets := by
  intro a memberA b memberB accepted keys
  obtain ⟨p,foundP⟩ := Option.isSome_iff_exists.mp accepted
  rw [foundP,Option.map_some] at keys
  obtain ⟨q,foundQ,sameKey⟩ := Option.map_eq_some_iff.mp keys.symm
  have distinct : (h.decoded.map key).Nodup := logged.seen ▸ logged.distinct
  obtain rfl := List.inj_on_of_nodup_map distinct (RoomHistory.mem_decoded.mpr ⟨a,memberA,foundP⟩)
    (RoomHistory.mem_decoded.mpr ⟨b,memberB,foundQ⟩) sameKey.symm
  rw [(decode_eq_some foundP).2,(decode_eq_some foundQ).2]

/-- Where no key is used twice, the history holds every packet of its log. -/
theorem Logged.mem_decoded {log : List Bytes} {h : RoomHistory} (logged : Logged log h) (consistent : KeyConsistent log) (p : StrokePacket) :
    p ∈ h.decoded ↔ ∃ b ∈ log, StrokePacket.decode b = some p := by
  rw [RoomHistory.mem_decoded]
  constructor
  · rintro ⟨b,member,accepted⟩
    exact ⟨b,logged.held b member,accepted⟩
  · rintro ⟨b,member,accepted⟩
    have known := logged.covers b member p accepted
    rw [← logged.seen] at known
    obtain ⟨q,held,sameKey⟩ := List.mem_map.mp known
    obtain ⟨a,kept,accepted'⟩ := RoomHistory.mem_decoded.mp held
    have same := consistent a (logged.held a kept) b member (by rw [accepted']; rfl)
      (by rw [accepted',accepted]; exact congrArg some sameKey)
    exact ⟨b,same ▸ kept,accepted⟩

theorem strokes_eq_of_logged {first second : List Bytes} {h h' : RoomHistory} (logged : Logged first h) (logged' : Logged second h')
    (consistent : KeyConsistent first) (same : ∀ b, (StrokePacket.decode b).isSome → (b ∈ first ↔ b ∈ second)) :
    h.strokes = h'.strokes := by
  have consistent' : KeyConsistent second := by
    intro a memberA b memberB accepted keys
    have accepted' : (StrokePacket.decode b).isSome := by rwa [← Option.isSome_map,← keys,Option.isSome_map]
    exact consistent a ((same a accepted).mpr memberA) b ((same b accepted').mpr memberB) accepted keys
  have distinct : (h.decoded.map key).Nodup := logged.seen ▸ logged.distinct
  have distinct' : (h'.decoded.map key).Nodup := logged'.seen ▸ logged'.distinct
  refine strokes_eq_of_perm ?_ distinct
  rw [List.perm_ext_iff_of_nodup distinct.of_map distinct'.of_map]
  intro p
  rw [logged.mem_decoded consistent,logged'.mem_decoded consistent']
  refine exists_congr fun b => and_congr_left fun accepted => same b ?_
  rw [accepted]
  rfl

/-- Two logs of the same packets give the same strokes and the same graph, however they are
ordered, whatever is repeated in them and whatever else they hold that is no packet. -/
theorem graphJson_eq_of_same_packets {first second : List Bytes} (consistent : KeyConsistent first)
    (same : ∀ b, (StrokePacket.decode b).isSome → (b ∈ first ↔ b ∈ second)) :
    (replay first).strokes = (replay second).strokes ∧ (replay first).graphJson = (replay second).graphJson := by
  have strokes := strokes_eq_of_logged (logged_replay first) (logged_replay second) consistent same
  exact ⟨strokes,by rw [graphJson,graphJson,strokes]⟩

/-- Two packets of one stroke. -/
def early : StrokePacket := ⟨7,1,0,false,[⟨0,0,0,0x3f800000⟩]⟩
def late : StrokePacket := ⟨7,1,1,true,[⟨0x3f800000,0,0,0x3f800000⟩]⟩

theorem graphJson_of_early_late :
    (replay [early.encode,late.encode]).graphJson = (replay [late.encode,[0],early.encode,late.encode]).graphJson := by
  refine (graphJson_eq_of_same_packets (by decide) fun b accepted => ?_).2
  have packet : b ≠ [0] := by
    rintro rfl
    exact absurd accepted (by decide)
  simp only [List.mem_cons,List.not_mem_nil,packet,or_false,false_or]
  tauto

end WarpLoop.Sketch.RoomHistory
