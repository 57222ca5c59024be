import WarpLoop.Shrubbery.Grammar
import WarpLoop.Shrubbery.Agreement

/-! The pieces of a printed program: texts that close what they open, split nowhere and
begin no comment. Calls of pieces are pieces, and they are parsed into their name and
their arguments. -/
namespace WarpLoop.Shrubbery
open Lib.Tokens

/-- No comment begins outside of strings. -/
def Uncommented : Int × Bool → Text → Prop
  | _,[] => True
  | state,c::rest => (c = '/' → rest.head? = some '/' → state.2 = true) ∧ Uncommented (scanStep state c) rest

theorem stripComment_uncommented {state : Int × Bool} {t : Text} (free : Uncommented state t) :
    Python.stripComment state.2 t = t := by
  induction t generalizing state with
  | nil => rfl
  | cons c rest ih =>
    obtain ⟨here,later⟩ := free
    have kept := ih later
    rw [Python.stripComment]
    by_cases quote : c = '"'
    · subst quote
      rw [if_pos rfl]
      exact congrArg (List.cons '"') kept
    · have still : (scanStep state c).2 = state.2 := by
        unfold scanStep
        rw [if_neg quote]
        split
        · rfl
        · split
          · rfl
          · split <;> rfl
      rw [still] at kept
      rw [if_neg quote,kept,if_neg]
      rintro ⟨slash,next,open_⟩
      rw [here slash next] at open_
      cases open_

theorem uncommented_append {state : Int × Bool} {t u : Text} (first : Uncommented state t)
    (second : Uncommented (scan state t) u) (seam : t.getLast? = some '/' → u.head? ≠ some '/') :
    Uncommented state (t ++ u) := by
  induction t generalizing state with
  | nil => exact second
  | cons c rest ih =>
    obtain ⟨here,later⟩ := first
    cases rest with
    | nil =>
      refine ⟨fun slash next => absurd next (seam ?_),second⟩
      rw [slash]
      rfl
    | cons d more => exact ⟨here,ih later second (fun last => seam (by rwa [List.getLast?_cons_cons]))⟩

/-- Text that comes back to the state of the scan, without a separator, a comment or a
newline on its way. -/
structure Steady (state : Int × Bool) (t : Text) : Prop where
  scans : scan state t = state
  avoids : Avoids ',' state t
  free : Uncommented state t
  oneLine : '\n' ∉ t

theorem Steady.append {state : Int × Bool} {t u : Text} (first : Steady state t) (second : Steady state u)
    (seam : t.getLast? = some '/' → u.head? ≠ some '/') : Steady state (t ++ u) where
  scans := by rw [scan_append,first.scans,second.scans]
  avoids := by
    rw [avoids_append,first.scans]
    exact ⟨first.avoids,second.avoids⟩
  free := uncommented_append first.free (by rw [first.scans]; exact second.free) seam
  oneLine := fun inside => (List.mem_append.mp inside).elim first.oneLine second.oneLine

/-- Characters that a scan passes over: without the comma, outside of brackets. -/
def Passes (state : Int × Bool) (c : Char) : Prop := isSpecial c = false ∧ (c = ',' → state ≠ outside) ∧ c ≠ '\n'

theorem steady_passes {state : Int × Bool} {t : Text} (passes : ∀ c ∈ t, Passes state c)
    (slashes : ¬ "//".toList <:+: t) : Steady state t := by
  induction t with
  | nil => exact ⟨rfl,trivial,trivial,List.not_mem_nil⟩
  | cons c rest ih =>
    obtain ⟨plain,comma,line⟩ := passes c List.mem_cons_self
    have later := ih (fun d inside => passes d (List.mem_cons_of_mem _ inside))
      (fun inside => slashes (inside.trans (List.suffix_cons c rest).isInfix))
    have stays := scanStep_plain state plain
    refine ⟨?_,⟨comma,?_⟩,⟨fun slash next => ?_,?_⟩,?_⟩
    · rw [scan,List.foldl_cons,stays]
      exact later.scans
    · rw [stays]
      exact later.avoids
    · refine absurd ?_ slashes
      cases rest with
      | nil => cases next
      | cons d more =>
        obtain rfl := Option.some.inj next
        rw [slash]
        exact ⟨[],more,rfl⟩
    · rw [stays]
      exact later.free
    · rintro (_ | ⟨_,inside⟩)
      · exact line rfl
      · exact later.oneLine inside

theorem steady_parens {depth : Int} {t : Text} (inner : Steady (depth + 1,false) t) :
    Steady (depth,false) ('('::t ++ [')']) := by
  have opened : scanStep (depth,false) '(' = (depth + 1,false) := rfl
  have closed : scanStep (depth + 1,false) ')' = (depth,false) := by
    rw [scanStep]
    simp [isOpen,isClose]
  refine ⟨?_,⟨fun same => absurd same (by decide),?_⟩,⟨fun same => absurd same (by decide),?_⟩,?_⟩
  · rw [List.cons_append,scan,List.foldl_cons,opened,← scan,scan_append,inner.scans,scan,List.foldl_cons,closed]
    rfl
  · rw [opened]
    refine (avoids_append _ _ t [')']).mpr ⟨inner.avoids,?_⟩
    rw [inner.scans]
    exact ⟨fun same => absurd same (by decide),trivial⟩
  · rw [opened]
    refine uncommented_append inner.free ⟨fun same => absurd same (by decide),trivial⟩ (fun _ => ?_)
    decide
  · simp [inner.oneLine]

theorem steady_str {depth : Int} {s : Text} (unquoted : '"' ∉ s) (oneLine : '\n' ∉ s) :
    Steady (depth,false) ('"'::s ++ ['"']) := by
  have opened : scanStep (depth,false) '"' = (depth,true) := rfl
  have closed : scanStep (depth,true) '"' = (depth,false) := rfl
  have inside : ∀ t : Text, '"' ∉ t → scan (depth,true) t = (depth,true) ∧ Avoids ',' (depth,true) t ∧
      Uncommented (depth,true) t := by
    intro t unquoted
    induction t with
    | nil => exact ⟨rfl,trivial,trivial⟩
    | cons c rest ih =>
      simp only [List.mem_cons,not_or] at unquoted
      have stays : scanStep (depth,true) c = (depth,true) := by simp [scanStep,Ne.symm unquoted.1]
      obtain ⟨scans,avoids,free⟩ := ih unquoted.2
      refine ⟨?_,⟨fun _ => by simp [outside],?_⟩,⟨fun _ _ => rfl,?_⟩⟩
      · rw [scan,List.foldl_cons,stays]
        exact scans
      · rw [stays]
        exact avoids
      · rw [stays]
        exact free
  obtain ⟨scans,avoids,free⟩ := inside s unquoted
  refine ⟨?_,⟨fun same => absurd same (by decide),?_⟩,⟨fun same => absurd same (by decide),?_⟩,?_⟩
  · rw [List.cons_append,scan,List.foldl_cons,opened,← scan,scan_append,scans,scan,List.foldl_cons,closed]
    rfl
  · rw [opened]
    refine (avoids_append _ _ s ['"']).mpr ⟨avoids,?_⟩
    rw [scans]
    exact ⟨fun same => absurd same (by decide),trivial⟩
  · rw [opened]
    refine uncommented_append free ⟨fun same => absurd same (by decide),trivial⟩ (fun _ => ?_)
    decide
  · simp [oneLine]

/-- A text that stands between separators. -/
structure Piece (t : Text) : Prop where
  nonempty : t ≠ []
  solid : Solid Python.isSpace t
  steady : ∀ depth : Int, 0 ≤ depth → Steady (depth,false) t

theorem Piece.strip_eq {t : Text} (piece : Piece t) : Python.strip t = t := stripWith_self piece.solid

/-- Text between two pieces, or around them. -/
def Glue (g : Text) : Prop := g ≠ [] ∧ ∀ c ∈ g, isSpecial c = false ∧ c ≠ ',' ∧ c ≠ '\n' ∧ c ≠ '/'

theorem glue_of_all {g : Text}
    (all : (!g.isEmpty && g.all (fun c => !isSpecial c && c ≠ ',' && c ≠ '\n' && c ≠ '/')) = true) : Glue g := by
  simp only [Bool.and_eq_true,Bool.not_eq_true',List.isEmpty_eq_false_iff,List.all_eq_true,decide_eq_true_eq] at all
  refine ⟨all.1,fun c inside => ?_⟩
  obtain ⟨⟨⟨plain,comma⟩,line⟩,slash⟩ := all.2 c inside
  exact ⟨plain,comma,line,slash⟩

theorem Glue.steady {g : Text} (glue : Glue g) (state : Int × Bool) : Steady state g := by
  refine steady_passes (fun c inside => ?_) (fun inside => ?_)
  · obtain ⟨plain,comma,line,_⟩ := glue.2 c inside
    exact ⟨plain,fun same => absurd same comma,line⟩
  · exact (glue.2 '/' (inside.subset (by decide))).2.2.2 rfl

theorem Glue.head {g : Text} (glue : Glue g) : g.head? ≠ some '/' :=
  fun first => (glue.2 '/' (List.mem_of_head? first)).2.2.2 rfl

theorem Glue.last {g : Text} (glue : Glue g) : g.getLast? ≠ some '/' :=
  fun last => (glue.2 '/' (List.mem_of_getLast? last)).2.2.2 rfl

theorem solid_append {t u : Text} (first : t ≠ [] ∧ ∀ c, t.head? = some c → Python.isSpace c = false)
    (last : u ≠ [] ∧ ∀ c, u.getLast? = some c → Python.isSpace c = false) : Solid Python.isSpace (t ++ u) := by
  refine ⟨fun c head => first.2 c ?_,fun c end_ => last.2 c ?_⟩
  · rwa [List.head?_append_of_ne_nil _ first.1] at head
  · rwa [List.getLast?_append_of_ne_nil _ last.1] at end_

theorem Piece.glued {t g u : Text} (first : Piece t) (glue : Glue g) (second : Piece u) : Piece (t ++ g ++ u) where
  nonempty := by simp [first.nonempty]
  solid := by
    rw [List.append_assoc]
    refine solid_append ⟨first.nonempty,first.solid.1⟩ ⟨by simp [second.nonempty],fun c last => second.solid.2 c ?_⟩
    rwa [List.getLast?_append_of_ne_nil _ second.nonempty] at last
  steady := fun depth positive =>
    ((first.steady depth positive).append (glue.steady _) (fun _ => glue.head)).append (second.steady depth positive)
      (fun last => absurd (by rwa [List.getLast?_append_of_ne_nil _ glue.1] at last) glue.last)

theorem Piece.led {g u : Text} (glue : Glue g) (solid : ∀ c, g.head? = some c → Python.isSpace c = false)
    (piece : Piece u) : Piece (g ++ u) where
  nonempty := by simp [piece.nonempty]
  solid := solid_append ⟨glue.1,solid⟩ ⟨piece.nonempty,piece.solid.2⟩
  steady := fun depth positive => (glue.steady _).append (piece.steady depth positive) (fun last => absurd last glue.last)

theorem Piece.closed {t g : Text} (piece : Piece t) (glue : Glue g)
    (solid : ∀ c, g.getLast? = some c → Python.isSpace c = false) : Piece (t ++ g) where
  nonempty := by simp [piece.nonempty]
  solid := solid_append ⟨piece.nonempty,piece.solid.1⟩ ⟨glue.1,solid⟩
  steady := fun depth positive => (piece.steady depth positive).append (glue.steady _) (fun _ => glue.head)

/-! Atoms, strings and names. -/

theorem cleanAtom_spec {a : Text} (clean : cleanAtom a = true) :
    a ≠ [] ∧ (∀ c ∈ a, Python.isSpace c = false ∧ isSpecial c = false ∧ c ≠ ',') ∧ ¬ "//".toList <:+: a := by
  simp only [cleanAtom,Bool.and_eq_true,decide_eq_true_eq,List.all_eq_true,Bool.not_eq_true',decide_eq_false_iff_not]
    at clean
  refine ⟨clean.1.1,fun c inside => ?_,clean.2⟩
  obtain ⟨⟨⟨⟨space,opens⟩,closes⟩,quote⟩,comma⟩ := clean.1.2 c inside
  exact ⟨space,by simp [isSpecial,opens,closes,quote],comma⟩

theorem piece_atom {a : Text} (clean : cleanAtom a = true) : Piece a := by
  obtain ⟨nonempty,chars,slashes⟩ := cleanAtom_spec clean
  refine ⟨nonempty,⟨fun c head => ?_,fun c last => ?_⟩,fun depth _ => steady_passes (fun c inside => ?_) slashes⟩
  · exact (chars c (List.mem_of_head? head)).1
  · exact (chars c (List.mem_of_getLast? last)).1
  · obtain ⟨space,plain,comma⟩ := chars c inside
    refine ⟨plain,fun same => absurd same comma,?_⟩
    rintro rfl
    exact absurd space (by decide)

theorem piece_str {s : Text} (clean : cleanStr s = true) : Piece ('"'::s ++ ['"']) := by
  simp only [cleanStr,Bool.and_eq_true,Bool.not_eq_true',List.contains_eq_mem,decide_eq_false_iff_not] at clean
  refine ⟨by simp,⟨fun c head => ?_,fun c last => ?_⟩,fun depth _ => steady_str clean.1 clean.2⟩
  · rw [← Option.some.inj head]
    decide
  · rw [List.getLast?_append_of_ne_nil _ (by simp)] at last
    rw [← Option.some.inj last]
    decide

theorem piece_join {parts : List Text} (pieces : ∀ t ∈ parts, Piece t) {depth : Int} (inside : 0 < depth) :
    Steady (depth,false) (join ", ".toList parts) := by
  induction parts using join.induct with
  | case1 => exact ⟨rfl,trivial,trivial,List.not_mem_nil⟩
  | case2 t => exact (pieces t List.mem_cons_self).steady depth (by omega)
  | case3 t u rest ih =>
    have first := (pieces t List.mem_cons_self).steady depth (by omega)
    have later := ih (fun v member => pieces v (List.mem_cons_of_mem _ member))
    have comma : Steady (depth,false) ", ".toList := by
      refine steady_passes (fun c member => ?_) (by decide)
      have known : c = ',' ∨ c = ' ' := by simpa using member
      have deep : (depth,false) ≠ outside := by
        intro same
        have zero : depth = 0 := congrArg Prod.fst same
        omega
      rcases known with rfl | rfl <;> exact ⟨by decide,fun _ => deep,by decide⟩
    rw [join]
    refine (first.append comma (fun _ => by decide)).append later (fun last => ?_)
    rw [List.getLast?_append_of_ne_nil _ (by decide)] at last
    exact absurd last (by decide)

theorem piece_call {name : Text} (clean : cleanAtom name = true) {parts : List Text} (pieces : ∀ t ∈ parts, Piece t) :
    Piece (callText name parts) := by
  have named := piece_atom clean
  refine ⟨by simp [callText],?_,fun depth positive => ?_⟩
  · rw [callText,List.append_assoc]
    refine solid_append ⟨named.nonempty,named.solid.1⟩ ⟨by simp,fun c last => ?_⟩
    rw [List.getLast?_append_of_ne_nil _ (by simp)] at last
    rw [← Option.some.inj last]
    decide
  · have args := steady_parens (piece_join pieces (by omega : 0 < depth + 1))
    rw [callText,List.append_assoc]
    exact (named.steady depth positive).append args (fun _ => by simp)

/-! Parsing calls and terms. -/

theorem splitName_call {name rest : Text} (plain : ∀ c ∈ name, Python.isSpace c = false ∧ isSpecial c = false) :
    splitName 0 (name ++ '('::rest) = some (name,rest) := by
  induction name with
  | nil => rfl
  | cons c more ih =>
    obtain ⟨space,own⟩ := plain c List.mem_cons_self
    have later := ih (fun d inside => plain d (List.mem_cons_of_mem _ inside))
    simp only [isSpecial,Bool.or_eq_false_iff,decide_eq_false_iff_not] at own
    have paren : c ≠ '(' := by
      rintro rfl
      exact absurd own.1.2 (by decide)
    have noSpace : ¬ (c = ' ' ∨ c = '\t') := by
      rintro (rfl | rfl) <;> exact absurd space (by decide)
    rw [List.cons_append,splitName,if_neg (fun both => paren both.1),if_neg (by simp [own]),if_neg (by simp [own]),
      if_neg noSpace,later]
    rfl

theorem cleanName_spec {name : Text} (clean : cleanName name = true) :
    cleanAtom name = true ∧ ∃ c, name.head? = some c ∧ idStartChar c = true := by
  simp only [cleanName,Bool.and_eq_true,Option.any_eq_true] at clean
  exact ⟨clean.1,clean.2⟩

theorem tidy_pieces {parts : List Text} (pieces : ∀ t ∈ parts, Piece t) : tidy parts = parts := by
  induction parts using tidy.induct with
  | case1 => rfl
  | case2 => exact absurd rfl (pieces [] List.mem_cons_self).nonempty
  | case3 t nonempty => rw [tidy,if_neg nonempty]
  | case4 t u rest ih => rw [tidy,ih (fun v inside => pieces v (List.mem_cons_of_mem _ inside))]

theorem splitArgs_pieces {parts : List Text} (pieces : ∀ t ∈ parts, Piece t) :
    splitArgs Python.strip (join ", ".toList parts) = parts := by
  have separate : Separate parts := by
    induction parts using Separate.induct with
    | case1 => trivial
    | case2 t => exact ((pieces t List.mem_cons_self).steady 0 (Int.le_refl 0)).avoids
    | case3 t u rest ih =>
      have first := (pieces t List.mem_cons_self).steady 0 (Int.le_refl 0)
      exact ⟨first.avoids,first.scans,ih (fun v inside => pieces v (List.mem_cons_of_mem _ inside))⟩
  have split := splitArgsFrom_join space_plain space_isSpace separate
    (fun t inside => (pieces t inside).strip_eq) (show ∀ c ∈ [], Python.isSpace c = true from List.forall_mem_nil _)
  exact split.trans (tidy_pieces pieces)

theorem parseCall_callText {name : Text} (clean : cleanName name = true) {parts : List Text}
    (pieces : ∀ t ∈ parts, Piece t) : parseCall Python.strip (callText name parts) = some (name,parts) := by
  obtain ⟨atom,start,head,named⟩ := cleanName_spec clean
  obtain ⟨nonempty,chars,_⟩ := cleanAtom_spec atom
  have whole := (piece_call atom pieces).strip_eq
  have text : callText name parts = name ++ '('::(join ", ".toList parts ++ [')']) := by simp [callText]
  have own := (piece_atom atom).strip_eq
  refine parseCall_eq_some.mpr ⟨name,join ", ".toList parts ++ [')'],start,?_,?_,?_,?_,named,own.symm,?_⟩
  · intro first found
    rw [whole,text,List.head?_append_of_ne_nil _ nonempty,head] at found
    obtain rfl := Option.some.inj found
    constructor <;> rintro rfl <;> exact absurd named (by decide)
  · rw [whole,text]
    exact splitName_call (fun c inside => ⟨(chars c inside).1,(chars c inside).2.1⟩)
  · rw [whole,callText,List.getLast?_append_of_ne_nil _ (by simp)]
    rfl
  · rw [own,head]
  · rw [List.dropLast_concat,splitArgs_pieces pieces]

theorem isDelimiter_clean {c : Char} (space : Python.isSpace c = false) (plain : isSpecial c = false) :
    isDelimiter c = false := by
  simp only [isSpecial,isOpen,isClose,Bool.or_eq_false_iff,decide_eq_false_iff_not] at plain
  have noWhite : c.isWhitespace = false := by
    cases white : c.isWhitespace with
    | false => rfl
    | true =>
      simp only [Char.isWhitespace,Bool.or_eq_true,decide_eq_true_eq] at white
      rcases white with ((rfl | rfl) | rfl) | rfl <;> exact absurd space (by decide)
  simp [isDelimiter,noWhite,plain]

theorem spells_cleanAtom {a : Text} (clean : cleanAtom a = true) : Spells a [.atom a] := by
  obtain ⟨nonempty,chars,_⟩ := cleanAtom_spec clean
  exact spells_atom nonempty (fun c inside => isDelimiter_clean (chars c inside).1 (chars c inside).2.1)

def SpellAll (texts : List Text) (sexps : List Sexp) : Prop := List.Forall₂ (fun t s => Spells t s.tokens) texts sexps

theorem spells_join {texts : List Text} {sexps : List Sexp} (spells : SpellAll texts sexps) {c : Char}
    (space : c.isWhitespace = true) : Spells (join [c] texts) (allTokens sexps) := by
  induction spells with
  | nil => exact spells_nil
  | @cons t s texts sexps first rest ih =>
    cases rest with
    | nil => simpa [join,allTokens] using first
    | cons second others =>
      rw [allTokens,join,List.append_assoc]
      exact first.append space ih

theorem termToSexpr_pass {t : Text} (piece : Piece t) (noCall : parseCall Python.strip t = none) :
    termToSexpr Python.strip t = t := by
  rw [termToSexpr_eq trims_python,piece.strip_eq,noCall]

mutual

theorem piece_print : ∀ {t : Term}, t.clean = true → Piece t.print
  | .atom _,clean => piece_atom clean
  | .str _,clean => piece_str clean
  | .call name args,clean => by
    rw [Term.clean,Bool.and_eq_true] at clean
    exact piece_call (cleanName_spec clean.1).1 (pieces_print clean.2)

theorem pieces_print : ∀ {args : List Term}, cleanTerms args = true → ∀ t ∈ printTerms args, Piece t
  | [],_ => List.forall_mem_nil _
  | t::rest,clean => by
    rw [cleanTerms,Bool.and_eq_true] at clean
    exact List.forall_mem_cons.mpr ⟨piece_print clean.1,pieces_print clean.2⟩

end

mutual

theorem spells_term : ∀ {t : Term}, t.clean = true → Spells (termToSexpr Python.strip t.print) t.sexp.tokens
  | .atom a,clean => by
    obtain ⟨_,chars,_⟩ := cleanAtom_spec clean
    have noCall : parseCall Python.strip a = none := by
      cases called : parseCall Python.strip a with
      | none => rfl
      | some call =>
        obtain ⟨before,rest,_,_,split,_⟩ := parseCall_eq_some.mp called
        rw [(piece_atom clean).strip_eq] at split
        have paren : '(' ∈ a := splitName_eq_some split ▸ List.mem_append_right _ List.mem_cons_self
        exact absurd (chars '(' paren).2.1 (by decide)
    rw [Term.print,termToSexpr_pass (piece_atom clean) noCall]
    exact spells_cleanAtom clean
  | .str s,clean => by
    have noCall : parseCall Python.strip ('"'::s ++ ['"']) = none := by
      cases called : parseCall Python.strip ('"'::s ++ ['"']) with
      | none => rfl
      | some call =>
        obtain ⟨before,rest,_,unquoted,_⟩ := parseCall_eq_some.mp called
        rw [(piece_str clean).strip_eq] at unquoted
        exact absurd rfl (unquoted '"' rfl).1
    rw [Term.print,termToSexpr_pass (piece_str clean) noCall]
    simp only [Term.clean,cleanStr,Bool.and_eq_true,Bool.not_eq_true',List.contains_eq_mem,
      decide_eq_false_iff_not] at clean
    exact spells_str clean.1
  | .call name args,clean => by
    rw [Term.clean,Bool.and_eq_true] at clean
    have pieces := pieces_print clean.2
    have whole := (piece_call (cleanName_spec clean.1).1 pieces).strip_eq
    rw [Term.print,termToSexpr_eq trims_python,whole,parseCall_callText clean.1 pieces]
    have parts : SpellAll (name::(printTerms args).map (termToSexpr Python.strip)) (.atom name::sexpTerms args) :=
      .cons (spells_cleanAtom (cleanName_spec clean.1).1) (spells_terms clean.2)
    exact (spells_join parts (by decide)).parens

theorem spells_terms : ∀ {args : List Term}, cleanTerms args = true →
    SpellAll ((printTerms args).map (termToSexpr Python.strip)) (sexpTerms args)
  | [],_ => .nil
  | t::rest,clean => by
    rw [cleanTerms,Bool.and_eq_true] at clean
    exact .cons (spells_term clean.1) (spells_terms clean.2)

end

end WarpLoop.Shrubbery
