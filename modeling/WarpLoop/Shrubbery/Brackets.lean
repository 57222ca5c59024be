import WarpLoop.Shrubbery.ScanSpecs

/-! Texts whose brackets close: as a scan sees them, which counts the open brackets outside
strings, and as a grammar. -/
namespace WarpLoop.Shrubbery

/-- The depth of the scan never goes below zero. -/
def NeverBelow : Int × Bool → Text → Prop
  | state,[] => 0 ≤ state.1
  | state,c::rest => 0 ≤ state.1 ∧ NeverBelow (scanStep state c) rest

structure Balanced (t : Text) : Prop where
  above : NeverBelow outside t
  closed : scan outside t = outside

/-- Characters, strings, and texts in brackets, one after the other. -/
inductive Closed : Text → Prop
  | nil : Closed []
  | plain {c rest} : isSpecial c = false → Closed rest → Closed (c::rest)
  | string {body rest} : '"' ∉ body → Closed rest → Closed ('"'::(body ++ '"'::rest))
  | brackets {opening closing inner rest} : isOpen opening = true → isClose closing = true → Closed inner → Closed rest →
      Closed (opening::(inner ++ closing::rest))

theorem neverBelow_append (state : Int × Bool) (t u : Text) :
    NeverBelow state (t ++ u) ↔ NeverBelow state t ∧ NeverBelow (scan state t) u := by
  induction t generalizing state with
  | nil =>
    cases u with
    | nil => exact ⟨fun above => ⟨above,above⟩,And.left⟩
    | cons c rest => exact ⟨fun above => ⟨above.1,above⟩,And.right⟩
  | cons c rest ih =>
    rw [List.cons_append,NeverBelow,NeverBelow,ih,and_assoc]
    rfl

/-! A scan that begins deeper. -/

def deeper (k : Int) (state : Int × Bool) : Int × Bool := (state.1 + k,state.2)

theorem scanStep_deeper (k : Int) (state : Int × Bool) (c : Char) :
    scanStep (deeper k state) c = deeper k (scanStep state c) := by
  unfold scanStep deeper
  dsimp only
  split
  · rfl
  · split
    · rfl
    · split
      · exact Prod.ext (Int.add_right_comm _ _ _) rfl
      · split
        · exact Prod.ext (Int.add_right_comm _ _ _) rfl
        · rfl

theorem scan_deeper (k : Int) (state : Int × Bool) (t : Text) : scan (deeper k state) t = deeper k (scan state t) := by
  induction t generalizing state with
  | nil => rfl
  | cons c rest ih =>
    rw [scan,List.foldl_cons,scanStep_deeper]
    exact ih (scanStep state c)

theorem neverBelow_deeper {k : Int} (nonneg : 0 ≤ k) {state : Int × Bool} {t : Text} (above : NeverBelow state t) :
    NeverBelow (deeper k state) t := by
  induction t generalizing state with
  | nil => exact Int.add_nonneg above nonneg
  | cons c rest ih =>
    obtain ⟨here,later⟩ := above
    refine ⟨Int.add_nonneg here nonneg,?_⟩
    rw [scanStep_deeper]
    exact ih later

/-- A scan that begins inside a string takes everything the other way around. -/
theorem scan_flip (d d' : Int) (inStr : Bool) (t : Text) : (scan (d,!inStr) t).2 = !(scan (d',inStr) t).2 := by
  induction t generalizing d d' inStr with
  | nil => rfl
  | cons c rest ih =>
    have flips (state other : Int × Bool) (differ : state.2 = !other.2) : (scanStep state c).2 = !(scanStep other c).2 := by
      unfold scanStep
      split
      · exact congrArg (!·) differ
      · repeat' split
        all_goals exact differ
    have next := flips (d,!inStr) (d',inStr) rfl
    have later := ih (scanStep (d,!inStr) c).1 (scanStep (d',inStr) c).1 (scanStep (d',inStr) c).2
    rw [← next] at later
    exact later

theorem scanStep_open {c : Char} (opens : isOpen c = true) (state : Int × Bool) (out : state.2 = false) :
    scanStep state c = deeper 1 state := by
  have quote : c ≠ '"' := by
    rintro rfl
    exact absurd opens (by decide)
  simp [scanStep,deeper,quote,out,opens]

theorem scanStep_close {c : Char} (closes : isClose c = true) (state : Int × Bool) (out : state.2 = false) :
    scanStep state c = deeper (-1) state := by
  have others : c ≠ '"' ∧ isOpen c = false := by
    simp only [isClose,Bool.or_eq_true,decide_eq_true_eq] at closes
    rcases closes with rfl | rfl <;> decide
  simp [scanStep,deeper,others,out,closes,Int.sub_eq_add_neg]

namespace Balanced

theorem nil : Balanced [] := ⟨Int.le_refl 0,rfl⟩

theorem append {t u : Text} (first : Balanced t) (second : Balanced u) : Balanced (t ++ u) := by
  constructor
  · rw [neverBelow_append,first.closed]
    exact ⟨first.above,second.above⟩
  · rw [scan_append,first.closed,second.closed]

theorem plain {t : Text} (all : ∀ c ∈ t, isSpecial c = false) : Balanced t := by
  induction t with
  | nil => exact nil
  | cons c rest ih =>
    have here := scanStep_plain outside (all c List.mem_cons_self)
    obtain ⟨above,closed⟩ := ih (fun d inside => all d (List.mem_cons_of_mem c inside))
    constructor
    · refine ⟨Int.le_refl 0,?_⟩
      rw [here]
      exact above
    · rw [scan,List.foldl_cons,here]
      exact closed

theorem brackets {opening closing : Char} (opens : isOpen opening = true) (closes : isClose closing = true) {inner : Text}
    (balanced : Balanced inner) : Balanced (opening::(inner ++ [closing])) := by
  have up := scanStep_open opens outside rfl
  have down : scanStep (deeper 1 outside) closing = outside := scanStep_close closes (deeper 1 outside) rfl
  constructor
  · refine ⟨Int.le_refl 0,?_⟩
    rw [up,neverBelow_append,scan_deeper,balanced.closed]
    refine ⟨neverBelow_deeper (by decide) balanced.above,?_,?_⟩
    · decide
    · rw [down]
      exact Int.le_refl 0
  · rw [scan,List.foldl_cons,up]
    change scan (deeper 1 outside) (inner ++ [closing]) = outside
    rw [scan_append,scan_deeper,balanced.closed]
    exact down

/-- What stands before a balanced end of a balanced text is balanced. -/
theorem of_append {t u : Text} (whole : Balanced (t ++ u)) (ending : Balanced u) : Balanced t := by
  obtain ⟨above,closed⟩ := whole
  rw [neverBelow_append] at above
  rw [scan_append] at closed
  refine ⟨above.1,?_⟩
  rcases reached : scan outside t with ⟨d,inStr⟩
  rw [reached] at closed
  cases inStr with
  | false =>
    have same : ((d,false) : Int × Bool) = deeper d outside := by simp [deeper,outside]
    rw [same,scan_deeper,ending.closed] at closed
    exact same.trans closed
  | true =>
    have inside := scan_flip d 0 false u
    change (scan (d,true) u).2 = !(scan outside u).2 at inside
    rw [closed,ending.closed] at inside
    cases inside

end Balanced

/-! The scan and the grammar. -/

theorem scan_string {body : Text} (absent : '"' ∉ body) (d : Int) : scan (d,true) body = (d,true) := by
  induction body with
  | nil => rfl
  | cons c rest ih =>
    obtain ⟨other,later⟩ := not_or.mp (mt List.mem_cons.mpr absent)
    have here : scanStep (d,true) c = (d,true) := by simp [scanStep,Ne.symm other]
    rw [scan,List.foldl_cons,here]
    exact ih later

theorem neverBelow_string {body : Text} (absent : '"' ∉ body) {d : Int} (nonneg : 0 ≤ d) : NeverBelow (d,true) body := by
  induction body with
  | nil => exact nonneg
  | cons c rest ih =>
    obtain ⟨other,later⟩ := not_or.mp (mt List.mem_cons.mpr absent)
    have here : scanStep (d,true) c = (d,true) := by simp [scanStep,Ne.symm other]
    refine ⟨nonneg,?_⟩
    rw [here]
    exact ih later

theorem Balanced.string {body : Text} (absent : '"' ∉ body) : Balanced ('"'::(body ++ ['"'])) := by
  constructor
  · refine ⟨Int.le_refl 0,?_⟩
    rw [neverBelow_append]
    refine ⟨neverBelow_string absent (Int.le_refl 0),?_⟩
    rw [show scanStep outside '"' = (0,true) from rfl,scan_string absent]
    exact ⟨Int.le_refl 0,Int.le_refl 0⟩
  · rw [scan,List.foldl_cons]
    change scan (0,true) (body ++ ['"']) = outside
    rw [scan_append,scan_string absent]
    rfl

theorem Closed.balanced {t : Text} (closed : Closed t) : Balanced t := by
  induction closed with
  | nil => exact .nil
  | plain ordinary _ ih => exact (Balanced.plain (List.forall_mem_singleton.mpr ordinary)).append ih
  | @string body rest absent _ ih =>
    have parts : '"'::(body ++ '"'::rest) = '"'::(body ++ ['"']) ++ rest := by simp
    rw [parts]
    exact (Balanced.string absent).append ih
  | @brackets opening closing inner rest opens closes _ _ ihInner ih =>
    have parts : opening::(inner ++ closing::rest) = opening::(inner ++ [closing]) ++ rest := by simp
    rw [parts]
    exact (Balanced.brackets opens closes ihInner).append ih

theorem scanStep_below {state : Int × Bool} (nonneg : 0 ≤ state.1) {c : Char} (below : ¬ 0 ≤ (scanStep state c).1) :
    isClose c = true ∧ state = outside := by
  unfold scanStep at below
  split at below
  · exact absurd nonneg below
  · split at below
    · exact absurd nonneg below
    · split at below
      · dsimp only at below
        omega
      · split at below
        case isTrue out _ closes =>
          dsimp only at below
          exact ⟨closes,Prod.ext (show state.1 = 0 by omega) (Bool.not_eq_true _ ▸ out)⟩
        case isFalse => exact absurd nonneg below

/-- A scan that ends below zero goes there with a bracket that closes. -/
theorem first_close {state : Int × Bool} (nonneg : 0 ≤ state.1) {t : Text} (ends : scan state t = (-1,false)) :
    ∃ inner closing rest, t = inner ++ closing::rest ∧ isClose closing = true ∧ NeverBelow state inner ∧
      scan state inner = outside := by
  induction t generalizing state with
  | nil =>
    rw [show state = (-1,false) from ends] at nonneg
    exact absurd nonneg (by decide)
  | cons c rest ih =>
    by_cases up : 0 ≤ (scanStep state c).1
    · obtain ⟨inner,closing,later,rfl,closes,above,level⟩ := ih up ends
      exact ⟨c::inner,closing,later,rfl,closes,⟨nonneg,above⟩,level⟩
    · have down := scanStep_below nonneg up
      exact ⟨[],c,rest,rfl,down.1,nonneg,down.2⟩

theorem string_end {d : Int} {t : Text} (ends : (scan (d,true) t).2 = false) : ∃ body rest, t = body ++ '"'::rest ∧ '"' ∉ body := by
  have inside : '"' ∈ t := by
    by_contra absent
    rw [scan_string absent] at ends
    cases ends
  obtain ⟨body,rest,rfl,absent⟩ := List.eq_append_cons_of_mem inside
  exact ⟨body,rest,rfl,absent⟩

/-- The texts of the grammar are those that a scan finds balanced. -/
theorem closed_iff_balanced (t : Text) : Closed t ↔ Balanced t := by
  refine ⟨Closed.balanced,?_⟩
  intro balanced
  generalize length : t.length = n
  induction n using Nat.strong_induction_on generalizing t with
  | h n ih =>
    cases t with
    | nil => exact .nil
    | cons c rest =>
      obtain ⟨⟨_,above⟩,closed⟩ := balanced
      rw [scan,List.foldl_cons] at closed
      change scan (scanStep outside c) rest = outside at closed
      rw [List.length_cons] at length
      by_cases quote : c = '"'
      · subst quote
        rw [show scanStep outside '"' = (0,true) from rfl] at above closed
        obtain ⟨body,later,rfl,absent⟩ := @string_end 0 rest (by rw [closed]; rfl)
        rw [scan_append,scan_string absent,scan,List.foldl_cons] at closed
        rw [neverBelow_append,scan_string absent] at above
        rw [List.length_append,List.length_cons] at length
        exact .string absent (ih later.length (by omega) later ⟨above.2.2,closed⟩ rfl)
      · cases opens : isOpen c with
        | true =>
          rw [scanStep_open opens outside rfl] at above closed
          have down : scan outside rest = (-1,false) := by
            rw [scan_deeper] at closed
            have first : (scan outside rest).1 + 1 = 0 := congrArg Prod.fst closed
            have second : (scan outside rest).2 = false := congrArg Prod.snd closed
            exact Prod.ext (show (scan outside rest).1 = -1 by omega) second
          obtain ⟨inner,closing,later,rfl,closes,innerAbove,level⟩ := first_close (Int.le_refl 0) down
          have back : scanStep (deeper 1 outside) closing = outside := scanStep_close closes (deeper 1 outside) rfl
          rw [scan_append,scan_deeper,level,scan,List.foldl_cons,back] at closed
          rw [neverBelow_append,scan_deeper,level,NeverBelow,back] at above
          rw [List.length_append,List.length_cons] at length
          exact .brackets opens closes (ih inner.length (by omega) inner ⟨innerAbove,level⟩ rfl)
            (ih later.length (by omega) later ⟨above.2.2,closed⟩ rfl)
        | false =>
          cases closes : isClose c with
          | true =>
            rw [scanStep_close closes outside rfl] at above
            have nonneg : 0 ≤ (deeper (-1) outside).1 := by
              cases rest with
              | nil => exact above
              | cons d more => exact above.1
            exact absurd nonneg (by decide)
          | false =>
            have plain : isSpecial c = false := by simp [isSpecial,quote,opens,closes]
            rw [scanStep_plain outside plain] at above closed
            exact .plain plain (ih rest.length (by omega) rest ⟨above,closed⟩ rfl)

end WarpLoop.Shrubbery
