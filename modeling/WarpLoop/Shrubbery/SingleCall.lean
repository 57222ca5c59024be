import WarpLoop.Shrubbery.Agreement
import WarpLoop.Shrubbery.Brackets

/-! Call syntax. A text is taken for a call if a parenthesis opens behind a name and the text
ends with one; that the last one closes the first is not checked. -/
namespace WarpLoop.Shrubbery

/-- What stands before the arguments of what is taken for a call, and what stands between the
parentheses. -/
def callShape (text : Text) : Option (Text × Text) :=
  match splitName 0 (Python.strip text) with
  | none => none
  | some (before,rest) =>
    if (Python.strip text).head? = some '"' ∨ (Python.strip text).head? = some '\'' then none
    else if (Python.strip text).getLast? ≠ some ')' then none
    else if (Python.strip before).head?.any idStartChar then some (before,rest.dropLast)
    else none

/-- The texts that the expansion of a text comes to. -/
inductive Nested (text : Text) : Text → Prop
  | self : Nested text text
  | argument {outer before inner arg} : Nested text outer → callShape outer = some (before,inner) →
      arg ∈ splitArgs Python.strip inner → Nested text arg

/-- The last parenthesis closes the one behind the name. -/
def Closes (text name : Text) : Prop := ∃ inner, Python.strip text = name ++ '('::(inner ++ [')']) ∧ Balanced inner

/-- The call becomes one form that begins with its name. -/
structure SingleCall (text name : Text) : Prop where
  closes : Closes text name
  form : ∃ body, termToSexpr Python.strip text = '('::(name ++ body ++ [')']) ∧ Balanced (name ++ body) ∧
    ∀ c, body.head? = some c → c = ' '

/-- A name right before its arguments, and all brackets close in both. -/
structure Sound (before inner : Text) : Prop where
  tight : Python.strip before = before
  name : Closed before
  arguments : Closed inner

theorem parseCall_eq_map (text : Text) :
    parseCall Python.strip text = (callShape text).map (fun shape => (Python.strip shape.1,splitArgs Python.strip shape.2)) := by
  unfold parseCall callShape
  dsimp only
  cases whole : Python.strip text with
  | nil => rfl
  | cons first more =>
    cases splitName 0 (first::more) with
    | none => simp
    | some parts =>
      obtain ⟨before,rest⟩ := parts
      simp only [List.head?_cons,Option.some.injEq]
      by_cases quoted : first = '"' ∨ first = '\''
      · rw [if_pos quoted,if_pos quoted]
        rfl
      · rw [if_neg quoted,if_neg quoted]
        by_cases closed : (first::more).getLast? = some ')'
        · rw [if_neg (not_not_intro closed),if_neg (not_not_intro closed)]
          cases (Python.strip before).head? with
          | none => rfl
          | some start => cases named : idStartChar start <;> simp [named]
        · rw [if_pos closed,if_pos closed]
          rfl

/-- The last parenthesis is not the one behind the name. -/
theorem callShape_parts {text before inner : Text} (shape : callShape text = some (before,inner)) :
    Python.strip text = before ++ '('::(inner ++ [')']) := by
  unfold callShape at shape
  split at shape
  case h_1 => contradiction
  case h_2 before' rest found =>
    split at shape
    · contradiction
    · split at shape
      · contradiction
      case isFalse closed =>
        split at shape
        case isTrue =>
          obtain ⟨rfl,rfl⟩ := Prod.mk.inj (Option.some.inj shape)
          have parts := splitName_eq_some found
          have last := not_not.mp closed
          rw [parts] at last ⊢
          cases rest with
          | nil => exact absurd last (by simp)
          | cons c more =>
            have ending : (c::more).getLast? = some ')' := by simpa [List.getLast?_append] using last
            rw [List.dropLast_append_getLast? ')' ending]
        case isFalse => contradiction

/-! Balanced parts. -/

namespace Balanced

/-- What stands behind a balanced beginning of a balanced text is balanced. -/
theorem of_append_left {t u : Text} (whole : Balanced (t ++ u)) (beginning : Balanced t) : Balanced u := by
  obtain ⟨above,closed⟩ := whole
  rw [neverBelow_append,beginning.closed] at above
  rw [scan_append,beginning.closed] at closed
  exact ⟨above.2,closed⟩

theorem strip {t : Text} (balanced : Balanced t) : Balanced (Python.strip t) := by
  obtain ⟨u,v,parts,front,back⟩ := stripWith_parts Python.isSpace Python.isSpace t
  rw [parts] at balanced
  have ending : Balanced v := plain (fun c inside => (space_plain c (back c inside)).1)
  exact (balanced.of_append ending).of_append_left (plain (fun c inside => (space_plain c (front c inside)).1))

theorem flatMap {α : Type} {items : List α} {f : α → Text} (each : ∀ item ∈ items, Balanced (f item)) :
    Balanced (items.flatMap f) := by
  induction items with
  | nil => exact nil
  | cons item rest ih =>
    rw [List.flatMap_cons]
    exact (each item List.mem_cons_self).append (ih (fun other inside => each other (List.mem_cons_of_mem item inside)))

/-- A comma outside brackets and strings cuts a balanced text into balanced ones. -/
theorem splitArgsFrom {state : Int × Bool} {cur s : Text} (whole : Balanced (cur ++ s)) (scanned : scan outside cur = state) :
    ∀ a ∈ Shrubbery.splitArgsFrom Python.strip state.1 state.2 cur s, Balanced a := by
  induction s generalizing state cur with
  | nil =>
    intro a inside
    rw [Shrubbery.splitArgsFrom] at inside
    split at inside
    · cases inside
    · rw [List.append_nil] at whole
      rw [List.mem_singleton.mp inside]
      exact whole.strip
  | cons c rest ih =>
    intro a inside
    rw [splitArgsFrom_cons] at inside
    split at inside
    case isTrue stop =>
      obtain ⟨rfl,rfl⟩ := stop
      have first : Balanced cur := ⟨((neverBelow_append _ _ _).mp whole.above).1,scanned⟩
      rcases List.mem_cons.mp inside with rfl | later
      · exact first.strip
      · have comma : Balanced [','] := plain (List.forall_mem_singleton.mpr (by decide))
        have others : Balanced rest := (whole.of_append_left first).of_append_left (t := [',']) comma
        exact @ih outside [] others rfl a later
    case isFalse =>
      refine ih ?_ ?_ a inside
      · rwa [List.append_assoc]
      · rw [scan_append,scanned]
        rfl

theorem splitArgs {inner : Text} (balanced : Balanced inner) : ∀ a ∈ Shrubbery.splitArgs Python.strip inner, Balanced a :=
  @splitArgsFrom outside [] inner balanced rfl

end Balanced

/-! The expansion of a call. -/

theorem join_space (first : Text) (others : List Text) : join [' '] (first::others) = first ++ others.flatMap (' '::·) := by
  induction others generalizing first with
  | nil => rw [join,List.flatMap_nil,List.append_nil]
  | cons second others ih => rw [join,ih,List.flatMap_cons,List.append_assoc]; rfl

theorem parseCall_strip (text : Text) : parseCall Python.strip (Python.strip text) = parseCall Python.strip text := by
  have idem : Python.strip (Python.strip text) = Python.strip text := stripWith_idem Python.isSpace text
  unfold parseCall
  dsimp only
  rw [idem]

/-- The arguments of a call, each behind a space. -/
def expansions (inner : Text) : Text := (splitArgs Python.strip inner).flatMap (fun a => ' '::termToSexpr Python.strip a)

theorem expansion_eq {text before inner : Text} (shape : callShape text = some (before,inner)) :
    termToSexpr Python.strip text = '('::(Python.strip before ++ expansions inner ++ [')']) := by
  rw [termToSexpr_eq trims_python,parseCall_strip,parseCall_eq_map,shape]
  dsimp only [Option.map_some]
  rw [join_space,List.flatMap_map]
  rfl

theorem expansion_unchanged {text : Text} (shape : callShape text = none) :
    termToSexpr Python.strip text = Python.strip text := by
  rw [termToSexpr_eq trims_python,parseCall_strip,parseCall_eq_map,shape]
  rfl

theorem parseCall_of_shape {text before inner : Text} (shape : callShape text = some (before,inner)) :
    parseCall Python.strip text = some (Python.strip before,splitArgs Python.strip inner) := by
  rw [parseCall_eq_map,shape]
  rfl

theorem shorter_argument {text before inner arg : Text} (shape : callShape text = some (before,inner))
    (inside : arg ∈ splitArgs Python.strip inner) : arg.length < text.length := by
  exact ((parseCall_part trims_python (parseCall_of_shape shape)).2 arg inside).1

theorem balanced_space {t : Text} (balanced : Balanced t) : Balanced (' '::t) :=
  (Balanced.plain (List.forall_mem_singleton.mpr (by decide))).append (t := [' ']) balanced

theorem expansions_balanced {inner : Text}
    (each : ∀ arg ∈ splitArgs Python.strip inner, Balanced (termToSexpr Python.strip arg)) : Balanced (expansions inner) :=
  Balanced.flatMap (fun arg inside => balanced_space (each arg inside))

/-- With sound calls inside it, a balanced text has a balanced expansion. -/
theorem expansion_balanced {text : Text}
    (sound : ∀ u, Nested text u → ∀ before inner, callShape u = some (before,inner) → Sound before inner)
    {u : Text} (nested : Nested text u) (balanced : Balanced u) : Balanced (termToSexpr Python.strip u) := by
  generalize length : u.length = n
  induction n using Nat.strong_induction_on generalizing u with
  | h n ih =>
    cases shape : callShape u with
    | none =>
      rw [expansion_unchanged shape]
      exact balanced.strip
    | some parts =>
      obtain ⟨before,inner⟩ := parts
      obtain ⟨tight,name,arguments⟩ := sound u nested before inner shape
      rw [expansion_eq shape,tight]
      apply Balanced.brackets rfl rfl
      apply name.balanced.append
      apply expansions_balanced
      intro arg inside
      have short := shorter_argument shape inside
      exact ih arg.length (by omega) (.argument nested shape inside) (arguments.balanced.splitArgs arg inside) rfl

theorem strip_tight {text before inner inner' : Text} (parts : Python.strip text = before ++ '('::inner)
    (parts' : Python.strip text = Python.strip before ++ '('::inner') : Python.strip before = before := by
  obtain ⟨u,v,padded,front,back⟩ := stripWith_parts Python.isSpace Python.isSpace before
  change before = u ++ Python.strip before ++ v at padded
  have solid : Solid Python.isSpace (Python.strip text) := solid_stripWith Python.isSpace text
  have start : u = [] := by
    cases u with
    | nil => rfl
    | cons c more =>
      have first := solid.1 c (by rw [parts,padded]; rfl)
      rw [front c List.mem_cons_self] at first
      cases first
  subst start
  rw [List.nil_append] at padded
  have rest : v ++ '('::inner = '('::inner' := by
    apply @List.append_cancel_left _ (Python.strip before)
    rw [← List.append_assoc,← padded,← parts,parts']
  cases v with
  | nil =>
    rw [List.append_nil] at padded
    exact padded.symm
  | cons c more =>
    obtain ⟨rfl,_⟩ := List.cons.inj rest
    exact absurd (back '(' List.mem_cons_self) (by decide)

/-- One form is a balanced text. -/
theorem SingleCall.balanced {text name : Text} (single : SingleCall text name) : Balanced (termToSexpr Python.strip text) := by
  obtain ⟨body,formed,balanced,_⟩ := single.form
  rw [formed]
  exact balanced.brackets rfl rfl

theorem single_argument_balanced {text : Text}
    (single : ∀ name args, parseCall Python.strip text = some (name,args) → SingleCall text name) (balanced : Balanced text) :
    Balanced (termToSexpr Python.strip text) := by
  cases shape : callShape text with
  | none =>
    rw [expansion_unchanged shape]
    exact balanced.strip
  | some parts => exact (single _ _ (parseCall_of_shape shape)).balanced

theorem closes_iff {text before inner : Text} (shape : callShape text = some (before,inner)) :
    Closes text (Python.strip before) ↔ Python.strip before = before ∧ Closed inner := by
  have parts := callShape_parts shape
  rw [closed_iff_balanced]
  constructor
  · rintro ⟨inner',parts',balanced⟩
    have tight := strip_tight parts parts'
    rw [parts,tight] at parts'
    have behind := (List.cons.inj (List.append_cancel_left parts')).2
    obtain rfl := List.append_cancel_right behind
    exact ⟨tight,balanced⟩
  · rintro ⟨tight,balanced⟩
    exact ⟨inner,by rw [tight,parts],balanced⟩

theorem shape_of_parseCall {text name : Text} {args : List Text} (parsed : parseCall Python.strip text = some (name,args)) :
    ∃ before inner, callShape text = some (before,inner) ∧ name = Python.strip before := by
  rw [parseCall_eq_map,Option.map_eq_some_iff] at parsed
  obtain ⟨⟨before,inner⟩,shape,same⟩ := parsed
  exact ⟨before,inner,shape,(Prod.mk.inj same).1.symm⟩

theorem expansions_head {inner : Text} {c : Char} (first : (expansions inner).head? = some c) : c = ' ' := by
  unfold expansions at first
  cases others : splitArgs Python.strip inner with
  | nil => simp [others] at first
  | cons arg more =>
    rw [others] at first
    exact (Option.some.inj first).symm

/-- A form of its own has a balanced name, since its arguments are balanced. -/
theorem SingleCall.sound {text before inner : Text} (shape : callShape text = some (before,inner))
    (single : SingleCall text (Python.strip before))
    (inside : ∀ arg ∈ splitArgs Python.strip inner, ∀ name args, parseCall Python.strip arg = some (name,args) → SingleCall arg name) :
    Sound before inner := by
  obtain ⟨closes,body,formed,balanced,_⟩ := single
  obtain ⟨tight,arguments⟩ := (closes_iff shape).mp closes
  rw [expansion_eq shape] at formed
  have written := List.append_cancel_right (List.cons.inj formed).2
  obtain rfl := List.append_cancel_left written
  rw [tight] at balanced
  have ending : Balanced (expansions inner) :=
    expansions_balanced (fun arg member => single_argument_balanced (inside arg member) (arguments.balanced.splitArgs arg member))
  exact ⟨tight,(closed_iff_balanced before).mpr (balanced.of_append ending),arguments⟩

theorem Sound.single {text before inner : Text} (shape : callShape text = some (before,inner)) (sound : Sound before inner)
    (inside : ∀ arg ∈ splitArgs Python.strip inner, Balanced (termToSexpr Python.strip arg)) : SingleCall text (Python.strip before) := by
  obtain ⟨tight,name,arguments⟩ := sound
  refine ⟨(closes_iff shape).mpr ⟨tight,arguments⟩,expansions inner,expansion_eq shape,?_,fun c => expansions_head⟩
  rw [tight]
  exact name.balanced.append (expansions_balanced inside)

/-- The last parenthesis closes the one behind the name exactly if the name stands right before
it and the brackets in between close. On a text and on what its expansion comes to, every call is
a single one exactly if each has a sound name and sound arguments. -/
theorem single_call_iff (text : Text) :
    ((∀ name args, parseCall Python.strip text = some (name,args) → Closes text name) ↔
      ∀ before inner, callShape text = some (before,inner) → Python.strip before = before ∧ Closed inner) ∧
    ((∀ u, Nested text u → ∀ name args, parseCall Python.strip u = some (name,args) → SingleCall u name) ↔
      ∀ u, Nested text u → ∀ before inner, callShape u = some (before,inner) → Sound before inner) := by
  refine ⟨⟨?_,?_⟩,?_,?_⟩
  · intro closes before inner shape
    exact (closes_iff shape).mp (closes _ _ (parseCall_of_shape shape))
  · intro sound name args parsed
    obtain ⟨before,inner,shape,rfl⟩ := shape_of_parseCall parsed
    exact (closes_iff shape).mpr (sound before inner shape)
  · intro single u nested before inner shape
    exact (single u nested _ _ (parseCall_of_shape shape)).sound shape
      (fun arg inside => single arg (.argument nested shape inside))
  · intro sound u nested name args parsed
    obtain ⟨before,inner,shape,rfl⟩ := shape_of_parseCall parsed
    have here := sound u nested before inner shape
    exact here.single shape (fun arg inside =>
      expansion_balanced sound (.argument nested shape inside) (here.arguments.balanced.splitArgs arg inside))

theorem two_calls_taken_for_one :
    ¬ ∀ name args, parseCall Python.strip "f(a)(b)".toList = some (name,args) → SingleCall "f(a)(b)".toList name := by
  intro single
  have shape : callShape "f(a)(b)".toList = some ("f".toList,"a)(b".toList) := by decide
  have taken : parseCall Python.strip "f(a)(b)".toList = some ("f".toList,["a)(b".toList]) := by decide
  have closed := ((closes_iff shape).mp (single _ _ taken).closes).2
  obtain ⟨_,_,below,_⟩ := closed.balanced.above
  exact absurd below (by decide)

end WarpLoop.Shrubbery
