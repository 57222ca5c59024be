import WarpLoop.Shrubbery.Pieces
import WarpLoop.Shrubbery.Portable

/-! Printed programs are read back: their lines, their block tree, and the
s-expressions that the reader makes of them. -/
namespace WarpLoop.Shrubbery
open Lib.Tokens Lib.Outcome

/-! Lines. -/

def indented (line : Line) : Text := List.replicate line.1 ' ' ++ line.2

theorem splitLines_append {t : Text} (oneLine : '\n' ∉ t) (rest : Text) :
    Python.splitLines (t ++ '\n'::rest) = t::Python.splitLines rest := by
  induction t with
  | nil => rfl
  | cons c more ih =>
    simp only [List.mem_cons,not_or] at oneLine
    rw [List.cons_append,Python.splitLines,if_neg (Ne.symm oneLine.1),ih oneLine.2]

section Indented
variable {line : Line} (piece : Piece line.2)
include piece

theorem steady_indented : Steady outside (indented line) := by
  have spaces : Steady outside (List.replicate line.1 ' ') := by
    refine steady_passes (fun c inside => ?_) (fun inside => ?_)
    · rw [List.eq_of_mem_replicate inside]
      exact ⟨by decide,fun same => absurd same (by decide),by decide⟩
    · have slash : '/' ∈ List.replicate line.1 ' ' := inside.subset (by decide)
      exact absurd (List.eq_of_mem_replicate slash) (by decide)
  refine spaces.append (piece.steady 0 (Int.le_refl 0)) (fun last => ?_)
  exact absurd (List.eq_of_mem_replicate (List.mem_of_getLast? last)) (by decide)

theorem strip_indented : Python.strip (indented line) = line.2 := by
  have padded : ∀ c ∈ List.replicate line.1 ' ', Python.isSpace c = true := by
    intro c inside
    rw [List.eq_of_mem_replicate inside]
    decide
  exact (stripWith_pad Python.isSpace padded line.2).trans piece.strip_eq

theorem rstrip_indented : Python.rstrip (indented line) = indented line := by
  refine List.rdropWhile_eq_self_iff.mpr (fun nonempty => ?_)
  have last := piece.solid.2 _ (List.getLast?_eq_getLast_of_ne_nil piece.nonempty)
  simp only [indented,List.getLast_append_of_ne_nil _ piece.nonempty,last]
  decide

theorem indentOf_indented : Python.indentOf (indented line) = line.1 := by
  have spaces : ∀ c ∈ List.replicate line.1 ' ', decide (c = ' ') = true :=
    fun c inside => decide_eq_true (List.eq_of_mem_replicate inside)
  have stops : line.2.takeWhile (· = ' ') = [] := by
    obtain ⟨c,rest,content⟩ := List.exists_cons_of_ne_nil piece.nonempty
    have solid := piece.solid.1 c (by rw [content]; rfl)
    have other : c ≠ ' ' := by
      rintro rfl
      exact absurd solid (by decide)
    rw [content,List.takeWhile_cons_of_neg (by simpa using other)]
  rw [indentOf_eq,S7.leadingSpaceCount,indented,List.takeWhile_append_of_pos spaces,stops,List.append_nil,
    List.length_replicate]

end Indented

theorem parseLines_indented {lines : List Line} (pieces : ∀ line ∈ lines, Piece line.2) :
    Python.parseLines (lines.map indented ++ [[]]) = .ok lines := by
  induction lines with
  | nil => rfl
  | cons line rest ih =>
    have piece := pieces line List.mem_cons_self
    have later := ih (fun other inside => pieces other (List.mem_cons_of_mem _ inside))
    have kept : Python.rstrip (Python.stripComment false (indented line)) = indented line := by
      have whole := stripComment_uncommented (steady_indented piece).free
      rw [show (outside.2 = false) from rfl] at whole
      rw [whole,rstrip_indented piece]
    have noTab : '\t' ∉ (indented line).take line.1 := by
      intro inside
      rw [indented,List.take_left' (List.length_replicate ..)] at inside
      exact absurd (List.eq_of_mem_replicate inside) (by decide)
    rw [List.map_cons,List.cons_append,Python.parseLines,kept,strip_indented piece,indentOf_indented piece,
      if_neg piece.nonempty,if_neg noTab,later]
    rfl

theorem splitLines_print {lines : List Line} (pieces : ∀ line ∈ lines, Piece line.2) :
    Python.splitLines (lines.flatMap printLine) = lines.map indented ++ [[]] := by
  induction lines with
  | nil => rfl
  | cons line rest ih =>
    have later := ih (fun other inside => pieces other (List.mem_cons_of_mem _ inside))
    have oneLine := (steady_indented (pieces line List.mem_cons_self)).oneLine
    have text : (line::rest).flatMap printLine = indented line ++ '\n'::rest.flatMap printLine := by
      simp [printLine,indented]
    rw [text,splitLines_append oneLine,later]
    rfl

/-! The block tree. -/

mutual

/-- A form in a block tree, with its first line and what follows it. -/
def Form.plant (header : Text) (later : Forest) : Form → Forest
  | .term _ => .leaf header later
  | .define _ _ _ body => .node header body.forest later
  | .letIn _ _ _ body => .node header body.forest later
  | .cond _ clauses => .node header clauses.forest later

def Forms.forest : Forms → Forest
  | .nil => .nil
  | .cons form rest => form.plant form.header rest.forest

def Clauses.forest : Clauses → Forest
  | .nil => .nil
  | .cons test result rest => result.plant (clauseText test result) rest.forest

end

/-- The lines go on at the indentation, or below it. -/
def AtMost (indent : Nat) (rest : List Line) : Prop := ∀ line, rest.head? = some line → line.1 ≤ indent

theorem siblings_end {fuel indent : Nat} {rest : List Line} (below : ∀ line, rest.head? = some line → line.1 < indent) :
    siblings fuel indent rest = (.nil,rest) := by
  cases fuel with
  | zero => rfl
  | succ fuel =>
    cases rest with
    | nil => rfl
    | cons line more =>
      have other : line.1 ≠ indent := Nat.ne_of_lt (below line rfl)
      rw [siblings.eq_def]
      dsimp only
      rw [if_neg other]

theorem siblings_leaf {fuel indent : Nat} {header : Text} {rest : List Line} (level : AtMost indent rest) :
    siblings (fuel + 1) indent ((indent,header)::rest) =
      (.leaf header (siblings fuel indent rest).1,(siblings fuel indent rest).2) := by
  rw [siblings.eq_def]
  dsimp only
  rw [if_pos rfl]
  cases rest with
  | nil => cases fuel <;> rfl
  | cons line more =>
    have flat : ¬ line.1 > indent := Nat.not_lt.mpr (level line rfl)
    dsimp only
    rw [if_neg flat]

theorem siblings_node {fuel indent deeper : Nat} {header : Text} {child rest : List Line} {tree : Forest}
    (starts : ∃ text more, child = (indent + 1 + deeper,text)::more)
    (read : siblings fuel (indent + 1 + deeper) (child ++ rest) = (tree,rest)) :
    siblings (fuel + 1) indent ((indent,header)::child ++ rest) =
      (.node header tree (siblings fuel indent rest).1,(siblings fuel indent rest).2) := by
  obtain ⟨text,more,rfl⟩ := starts
  rw [List.cons_append,siblings.eq_def]
  dsimp only
  rw [if_pos rfl,List.cons_append]
  rw [List.cons_append] at read
  dsimp only
  rw [if_pos (by omega),read]

theorem lines_start {forms : Forms} (nonempty : forms.isNil = false) (indent : Nat) :
    ∃ text more, forms.lines indent = (indent,text)::more := by
  cases forms with
  | nil => cases nonempty
  | cons form rest => exact ⟨_,_,rfl⟩

theorem clauses_start {clauses : Clauses} (nonempty : clauses.isNil = false) (indent : Nat) :
    ∃ text more, clauses.lines indent = (indent,text)::more := by
  cases clauses with
  | nil => cases nonempty
  | cons test result rest => exact ⟨_,_,rfl⟩

theorem forms_atMost (forms : Forms) {indent : Nat} {rest : List Line}
    (below : ∀ line, rest.head? = some line → line.1 < indent) : AtMost indent (forms.lines indent ++ rest) := by
  intro line head
  cases forms with
  | nil => exact Nat.le_of_lt (below line head)
  | cons form others =>
    obtain rfl := Option.some.inj head
    exact Nat.le_refl _

theorem clauses_atMost (clauses : Clauses) {indent : Nat} {rest : List Line}
    (below : ∀ line, rest.head? = some line → line.1 < indent) : AtMost indent (clauses.lines indent ++ rest) := by
  intro line head
  cases clauses with
  | nil => exact Nat.le_of_lt (below line head)
  | cons test result others =>
    obtain rfl := Option.some.inj head
    exact Nat.le_refl _

theorem AtMost.below {indent deeper : Nat} {rest : List Line} (level : AtMost indent rest) :
    ∀ line, rest.head? = some line → line.1 < indent + 1 + deeper :=
  fun line head => by
    have bound := level line head
    omega

mutual

theorem siblings_form {fuel indent : Nat} {header : Text} {rest : List Line} (level : AtMost indent rest) :
    ∀ {form : Form}, form.wellFormed = true → (form.inner indent).length ≤ fuel →
      siblings (fuel + 1) indent ((indent,header)::form.inner indent ++ rest) =
        (form.plant header (siblings fuel indent rest).1,(siblings fuel indent rest).2)
  | .term _,_,_ => siblings_leaf level
  | .define _ _ _ _,wellFormed,enough => by
    simp only [Form.wellFormed,Bool.and_eq_true,Bool.not_eq_true'] at wellFormed
    exact siblings_node (lines_start wellFormed.1.2 _) (siblings_forms level.below wellFormed.2 enough)
  | .letIn _ _ _ _,wellFormed,enough => by
    simp only [Form.wellFormed,Bool.and_eq_true,Bool.not_eq_true'] at wellFormed
    exact siblings_node (lines_start wellFormed.1.2 _) (siblings_forms level.below wellFormed.2 enough)
  | .cond _ _,wellFormed,enough => by
    simp only [Form.wellFormed,Bool.and_eq_true,Bool.not_eq_true'] at wellFormed
    exact siblings_node (clauses_start wellFormed.1 _) (siblings_clauses level.below wellFormed.2 enough)

theorem siblings_forms {fuel indent : Nat} {rest : List Line}
    (below : ∀ line, rest.head? = some line → line.1 < indent) :
    ∀ {forms : Forms}, forms.wellFormed = true → (forms.lines indent).length ≤ fuel →
      siblings fuel indent (forms.lines indent ++ rest) = (forms.forest,rest)
  | .nil,_,_ => siblings_end below
  | .cons form others,wellFormed,enough => by
    simp only [Forms.wellFormed,Bool.and_eq_true] at wellFormed
    simp only [Forms.lines,List.cons_append,List.length_cons,List.length_append] at enough
    obtain ⟨fuel,rfl⟩ : ∃ less, fuel = less + 1 := ⟨fuel - 1,by omega⟩
    have later := @siblings_forms fuel _ _ below _ wellFormed.2 (by omega)
    have first := @siblings_form _ _ form.header _ (forms_atMost others below) _ wellFormed.1
      (by omega : (form.inner indent).length ≤ fuel)
    rw [later] at first
    rw [Forms.lines,List.append_assoc]
    exact first

theorem siblings_clauses {fuel indent : Nat} {rest : List Line}
    (below : ∀ line, rest.head? = some line → line.1 < indent) :
    ∀ {clauses : Clauses}, clauses.wellFormed = true → (clauses.lines indent).length ≤ fuel →
      siblings fuel indent (clauses.lines indent ++ rest) = (clauses.forest,rest)
  | .nil,_,_ => siblings_end below
  | .cons test result others,wellFormed,enough => by
    simp only [Clauses.wellFormed,Bool.and_eq_true] at wellFormed
    simp only [Clauses.lines,List.cons_append,List.length_cons,List.length_append] at enough
    obtain ⟨fuel,rfl⟩ : ∃ less, fuel = less + 1 := ⟨fuel - 1,by omega⟩
    have later := @siblings_clauses fuel _ _ below _ wellFormed.2 (by omega)
    have first := @siblings_form _ _ (clauseText test result) _ (clauses_atMost others below) _ wellFormed.1.2
      (by omega : (result.inner indent).length ≤ fuel)
    rw [later] at first
    rw [Clauses.lines,List.append_assoc]
    exact first

end

/-! The lines are pieces. -/

/-- The words that a printed block begins with. -/
theorem keywords_clean : ∀ word ∈ ["define","let","let*","cond"], cleanAtom word.toList = true := by decide +kernel

theorem glue_colon : Glue [':'] := glue_of_all (by decide)

theorem glue_bind : Glue ": ".toList := glue_of_all (by decide)

theorem piece_binding {b : Text × Term} (clean : cleanAtom b.1 = true ∧ b.2.clean = true) : Piece (bindingPart b) :=
  (piece_atom clean.1).glued glue_bind (piece_print clean.2)

theorem piece_let {kind : LetKind} (clean : kind.clean = true) {parts : List Text} (pieces : ∀ t ∈ parts, Piece t) :
    Piece (kind.header parts) := by
  cases kind with
  | plain => exact piece_call (keywords_clean "let" (by simp)) pieces
  | star => exact piece_call (keywords_clean "let*" (by simp)) pieces
  | named name =>
    exact Piece.led (glue_of_all (by decide)) (fun c head => by rw [← Option.some.inj head]; decide)
      (piece_call (cleanName_spec clean).1 pieces)

theorem piece_define {name : Text} (clean : cleanName name = true) {params : List Text}
    (cleanParams : ∀ p ∈ params, cleanAtom p = true) : Piece ("define ".toList ++ callText name params) :=
  Piece.led (glue_of_all (by decide)) (fun c head => by rw [← Option.some.inj head]; decide)
    (piece_call (cleanName_spec clean).1 (fun p inside => piece_atom (cleanParams p inside)))

theorem bindings_spec {bindings : List (Text × Term)}
    (clean : (bindings.all (fun b => cleanAtom b.1 && !b.1.contains ':' && b.2.clean)) = true) :
    ∀ b ∈ bindings, cleanAtom b.1 = true ∧ ':' ∉ b.1 ∧ b.2.clean = true := by
  intro b inside
  have own := List.all_eq_true.mp clean b inside
  simp only [Bool.and_eq_true,Bool.not_eq_true',List.contains_eq_mem,decide_eq_false_iff_not] at own
  exact ⟨own.1.1,own.1.2,own.2⟩

theorem piece_bindings {bindings : List (Text × Term)}
    (clean : ∀ b ∈ bindings, cleanAtom b.1 = true ∧ ':' ∉ b.1 ∧ b.2.clean = true) :
    ∀ part ∈ bindings.map bindingPart, Piece part := by
  intro part inside
  obtain ⟨b,member,rfl⟩ := List.mem_map.mp inside
  exact piece_binding ⟨(clean b member).1,(clean b member).2.2⟩

theorem piece_header {form : Form} (wellFormed : form.wellFormed = true) : Piece form.header := by
  have colon (t : Text) (piece : Piece t) : Piece (t ++ [':']) :=
    piece.closed glue_colon (fun c last => by rw [← Option.some.inj last]; decide)
  cases form with
  | term t =>
    simp only [Form.wellFormed,Bool.and_eq_true] at wellFormed
    exact piece_print wellFormed.1
  | define name params deeper body =>
    simp only [Form.wellFormed,Bool.and_eq_true,List.all_eq_true] at wellFormed
    exact colon _ (piece_define wellFormed.1.1.1 wellFormed.1.1.2)
  | letIn kind bindings deeper body =>
    simp only [Form.wellFormed,Bool.and_eq_true] at wellFormed
    exact colon _ (piece_let wellFormed.1.1.1 (piece_bindings (bindings_spec (by simpa using wellFormed.1.1.2))))
  | cond deeper clauses => exact colon _ (piece_atom (keywords_clean "cond" (by simp)))

theorem piece_clause {test : Term} (clean : test.clean = true) {result : Form} (wellFormed : result.wellFormed = true) :
    Piece (clauseText test result) := by
  have parts := (piece_print clean).glued glue_bind (piece_header wellFormed)
  have whole : Piece ("| ".toList ++ (test.print ++ ": ".toList ++ result.header)) :=
    Piece.led (glue_of_all (by decide)) (fun c head => by rw [← Option.some.inj head]; decide) parts
  simpa [clauseText] using whole

mutual

theorem pieces_inner : ∀ {form : Form}, form.wellFormed = true → ∀ indent, ∀ line ∈ form.inner indent, Piece line.2
  | .term _,_,_ => List.forall_mem_nil _
  | .define _ _ _ _,wellFormed,indent => by
    simp only [Form.wellFormed,Bool.and_eq_true] at wellFormed
    exact pieces_lines wellFormed.2 _
  | .letIn _ _ _ _,wellFormed,indent => by
    simp only [Form.wellFormed,Bool.and_eq_true] at wellFormed
    exact pieces_lines wellFormed.2 _
  | .cond _ _,wellFormed,indent => by
    simp only [Form.wellFormed,Bool.and_eq_true] at wellFormed
    exact pieces_clauses wellFormed.2 _

theorem pieces_lines : ∀ {forms : Forms}, forms.wellFormed = true → ∀ indent, ∀ line ∈ forms.lines indent, Piece line.2
  | .nil,_,_ => List.forall_mem_nil _
  | .cons form rest,wellFormed,indent => by
    simp only [Forms.wellFormed,Bool.and_eq_true] at wellFormed
    intro line inside
    rcases List.mem_append.mp inside with here | later
    · rcases List.mem_cons.mp here with rfl | within
      · exact piece_header wellFormed.1
      · exact pieces_inner wellFormed.1 indent line within
    · exact pieces_lines wellFormed.2 indent line later

theorem pieces_clauses :
    ∀ {clauses : Clauses}, clauses.wellFormed = true → ∀ indent, ∀ line ∈ clauses.lines indent, Piece line.2
  | .nil,_,_ => List.forall_mem_nil _
  | .cons test result rest,wellFormed,indent => by
    simp only [Clauses.wellFormed,Bool.and_eq_true] at wellFormed
    intro line inside
    rcases List.mem_append.mp inside with here | later
    · rcases List.mem_cons.mp here with rfl | within
      · exact piece_clause wellFormed.1.1.1 wellFormed.1.2
      · exact pieces_inner wellFormed.1.2 indent line within
    · exact pieces_clauses wellFormed.2 indent line later

end

/-! Reading the forms. -/

/-- A computation that gives a text for the s-expression. -/
def Reads (read : Except Python.Error Text) (s : Sexp) : Prop := ∃ out, read = .ok out ∧ Spells out s.tokens

def ReadsAll (read : Except Python.Error (List Text)) (sexps : List Sexp) : Prop :=
  ∃ texts, read = .ok texts ∧ SpellAll texts sexps

theorem lineToSexpr_block {header : Text} (piece : Piece header) (sub : Python.Readings) :
    Python.lineToSexpr (header ++ [':']) (some sub) = Python.blockHeaderToSexpr header (some sub) := by
  rw [Python.lineToSexpr,if_pos List.getLast?_concat,List.dropLast_concat,piece.strip_eq]

theorem space_white : Char.isWhitespace ' ' = true := by decide

theorem spells_word {word : Text} (clean : cleanAtom word = true) {text : Text} {sexps : List Sexp}
    (rest : Spells text (allTokens sexps)) : Spells (word ++ ' '::text) (allTokens (.atom word::sexps)) :=
  (spells_cleanAtom clean).append (by decide) rest

theorem spells_list {text : Text} {sexps : List Sexp} (inner : Spells text (allTokens sexps)) :
    Spells ('('::text ++ [')']) (Sexp.list sexps).tokens := inner.parens

theorem spells_cons {text text' : Text} {s : Sexp} {sexps : List Sexp} (first : Spells text s.tokens)
    (rest : Spells text' (allTokens sexps)) : Spells (text ++ ' '::text') (allTokens (s::sexps)) :=
  first.append (by decide) rest

theorem spells_params {params : List Text} (clean : ∀ p ∈ params, cleanAtom p = true) :
    SpellAll params (params.map .atom) := by
  induction params with
  | nil => exact .nil
  | cons p rest ih =>
    exact .cons (spells_cleanAtom (clean p List.mem_cons_self)) (ih (fun q inside => clean q (List.mem_cons_of_mem _ inside)))

theorem reads_define {name : Text} (clean : cleanName name = true) {params : List Text}
    (cleanParams : ∀ p ∈ params, cleanAtom p = true) {sub : Python.Readings} {sexps : List Sexp}
    (body : ReadsAll sub.body sexps) :
    Reads (Python.lineToSexpr ("define ".toList ++ callText name params ++ [':']) (some sub))
      (.list (.atom "define".toList::.list (.atom name::params.map .atom)::sexps)) := by
  obtain ⟨texts,read,spells⟩ := body
  have isDefine : "define ".toList.isPrefixOf ("define ".toList ++ callText name params) = true :=
    List.isPrefixOf_iff_prefix.mpr (List.prefix_append _ _)
  have rest : ("define ".toList ++ callText name params).drop 7 = callText name params := rfl
  have call := parseCall_callText clean (fun p inside => piece_atom (cleanParams p inside))
  have run : Python.lineToSexpr ("define ".toList ++ callText name params ++ [':']) (some sub) =
      .ok ("(define (".toList ++ name ++ ' '::join [' '] params ++ ") ".toList ++ join [' '] texts ++ [')']) := by
    rw [lineToSexpr_block (piece_define clean cleanParams),Python.blockHeaderToSexpr]
    dsimp only
    rw [if_pos isDefine,rest,call]
    dsimp only
    rw [read]
    rfl
  have head := spells_list (spells_word (cleanName_spec clean).1 (spells_join (spells_params cleanParams) space_white))
  have whole := spells_list (spells_word (keywords_clean "define" (by simp))
    (spells_cons head (spells_join spells space_white)))
  exact ⟨_,run,by simpa using whole⟩

theorem strip_space (t : Text) : Python.strip (' '::t) = Python.strip t :=
  stripWith_pad Python.isSpace space_isSpace t

theorem parseBinding_part {b : Text × Term} (clean : cleanAtom b.1 = true ∧ ':' ∉ b.1 ∧ b.2.clean = true) :
    Python.parseBinding (bindingPart b) = .ok (b.1,termToSexpr Python.strip b.2.print) := by
  have text : bindingPart b = b.1 ++ ':'::(' '::b.2.print) := by simp [bindingPart]
  have colon : ':' ∈ b.1 ++ ':'::(' '::b.2.print) := List.mem_append_right _ List.mem_cons_self
  have value : Python.strip (' '::b.2.print) = b.2.print :=
    (strip_space b.2.print).trans (piece_print clean.2.2).strip_eq
  rw [text,Python.parseBinding,if_neg (not_not_intro colon),takeWhile_first clean.2.1,dropWhile_first clean.2.1,
    List.tail_cons]
  dsimp only
  rw [(piece_atom clean.1).strip_eq,value]
  rfl

theorem reads_bindings {text name : Text} {bindings : List (Text × Term)}
    (clean : ∀ b ∈ bindings, cleanAtom b.1 = true ∧ ':' ∉ b.1 ∧ b.2.clean = true)
    (call : parseCall Python.strip text = some (name,bindings.map bindingPart)) :
    Reads (Python.bindingSexpr (bindings.map bindingPart)) (.list (bindings.map (fun b => .list [.atom b.1,b.2.sexp]))) := by
  have parsed : (bindings.map bindingPart).mapM Python.parseBinding =
      .ok (bindings.map (fun b => (b.1,termToSexpr Python.strip b.2.print))) := by
    rw [List.mapM_map]
    exact mapM_eq_ok (fun b inside => parseBinding_part (clean b inside))
  have run : Python.bindingSexpr (bindings.map bindingPart) =
      .ok ('('::join [' '] (bindings.map (fun b => bindingText (b.1,termToSexpr Python.strip b.2.print))) ++ [')']) := by
    rw [pythonBindingSexpr_eq call,tidy_pieces (piece_bindings clean),parsed]
    change Except.ok _ = _
    rw [List.map_map]
    rfl
  refine ⟨_,run,spells_list (spells_join ?_ space_white)⟩
  clear call parsed run
  induction bindings with
  | nil => exact .nil
  | cons b rest ih =>
    obtain ⟨own,later⟩ := List.forall_mem_cons.mp clean
    have value : Spells (termToSexpr Python.strip b.2.print) (allTokens [b.2.sexp]) := by
      simpa [allTokens] using spells_term own.2.2
    have pair := spells_list (spells_word own.1 value)
    exact .cons (by simpa [bindingText] using pair) (ih later)

theorem reads_unnamed {star : Bool} {bindings : List (Text × Term)}
    (clean : ∀ b ∈ bindings, cleanAtom b.1 = true ∧ ':' ∉ b.1 ∧ b.2.clean = true) {sub : Python.Readings}
    {texts : List Text} (read : sub.body = .ok texts) :
    let word := if star then "let*".toList else "let".toList
    ∃ out, Spells out (Sexp.list (bindings.map (fun b => .list [.atom b.1,b.2.sexp]))).tokens ∧
      Python.blockHeaderToSexpr (callText word (bindings.map bindingPart)) (some sub) =
        .ok ('('::word ++ ' '::out ++ ' '::join [' '] texts ++ [')']) := by
  intro word
  have name : cleanName word = true := by cases star <;> decide
  have call := parseCall_callText name (piece_bindings clean)
  obtain ⟨out,bound,spelled⟩ := reads_bindings clean call
  refine ⟨out,spelled,?_⟩
  rw [Python.blockHeaderToSexpr]
  dsimp only
  rw [call]
  dsimp only
  rw [bound,read]
  cases star <;> simp [word,callText] <;> rfl

theorem reads_let {kind : LetKind} (cleanKind : kind.clean = true) {bindings : List (Text × Term)}
    (clean : ∀ b ∈ bindings, cleanAtom b.1 = true ∧ ':' ∉ b.1 ∧ b.2.clean = true) {sub : Python.Readings}
    {sexps : List Sexp} (body : ReadsAll sub.body sexps) :
    Reads (Python.lineToSexpr (kind.header (bindings.map bindingPart) ++ [':']) (some sub))
      (.list (kind.sexps ++ .list (bindings.map (fun b => .list [.atom b.1,b.2.sexp]))::sexps)) := by
  have pieces := piece_bindings clean
  obtain ⟨texts,read,spells⟩ := body
  rw [lineToSexpr_block (piece_let cleanKind pieces)]
  have rest {text : Text} {s : Sexp} (first : Spells text s.tokens) :
      Spells (text ++ ' '::join [' '] texts) (allTokens (s::sexps)) := spells_cons first (spells_join spells space_white)
  cases kind with
  | named name =>
    have call := parseCall_callText cleanKind pieces
    obtain ⟨out,bound,spelled⟩ := reads_bindings clean call
    have text : Python.strip ((LetKind.header (.named name) (bindings.map bindingPart)).drop 4) =
        callText name (bindings.map bindingPart) := (piece_call (cleanName_spec cleanKind).1 pieces).strip_eq
    have run : Python.blockHeaderToSexpr (LetKind.header (.named name) (bindings.map bindingPart)) (some sub) =
        .ok ("(let ".toList ++ name ++ ' '::out ++ ' '::join [' '] texts ++ [')']) := by
      rw [Python.blockHeaderToSexpr]
      dsimp only
      rw [if_neg (show ¬ "define ".toList.isPrefixOf (LetKind.header (.named name) _) = true by simp [LetKind.header]),
        if_pos (show "let ".toList.isPrefixOf (LetKind.header (.named name) _) = true by simp [LetKind.header]),
        text,call]
      dsimp only
      rw [bound,read]
      rfl
    have whole := spells_list (spells_word (keywords_clean "let" (by simp))
      (spells_word (cleanName_spec cleanKind).1 (rest spelled)))
    exact ⟨_,run,by simpa [LetKind.sexps] using whole⟩
  | plain =>
    obtain ⟨out,spelled,run⟩ := @reads_unnamed false _ clean _ _ read
    have whole := spells_list (spells_word (keywords_clean "let" (by simp)) (rest spelled))
    exact ⟨_,run,by simpa [LetKind.sexps] using whole⟩
  | star =>
    obtain ⟨out,spelled,run⟩ := @reads_unnamed true _ clean _ _ read
    have whole := spells_list (spells_word (keywords_clean "let*" (by simp)) (rest spelled))
    exact ⟨_,run,by simpa [LetKind.sexps] using whole⟩

theorem reads_cond {sub : Python.Readings} {sexps : List Sexp} (clauses : ReadsAll sub.clauses sexps) :
    Reads (Python.lineToSexpr "cond:".toList (some sub)) (.list (.atom "cond".toList::sexps)) := by
  obtain ⟨texts,read,spells⟩ := clauses
  have run : Python.lineToSexpr "cond:".toList (some sub) = .ok ("(cond ".toList ++ join [' '] texts ++ [')']) := by
    have header : Piece "cond".toList := piece_atom (keywords_clean "cond" (by simp))
    rw [show "cond:".toList = "cond".toList ++ [':'] from rfl,lineToSexpr_block header,Python.blockHeaderToSexpr]
    dsimp only
    rw [if_neg (by decide),if_neg (by decide),if_neg (by decide),if_neg (by decide),if_pos rfl,read]
    rfl
  have whole := spells_list (spells_word (keywords_clean "cond" (by simp)) (spells_join spells space_white))
  exact ⟨_,run,by simpa using whole⟩

theorem reads_term {t : Term} (clean : t.clean = true) (alone : t.standsAlone = true) :
    Reads (Python.lineToSexpr t.print none) t.sexp := by
  simp only [Term.standsAlone,Bool.and_eq_true,Bool.not_eq_true',decide_eq_true_eq] at alone
  have other : ¬ (Python.isBlockKeyword t.print = true ∨ t.print = "cond".toList) := by
    rintro (keyword | same)
    · rw [alone.1] at keyword
      cases keyword
    · rw [same] at alone
      exact absurd alone.1 (by decide)
  refine ⟨_,?_,spells_term clean⟩
  rw [Python.lineToSexpr,if_neg alone.2,if_neg (by simp),if_neg other]
  rfl

/-! The colons of a test are inside brackets and strings. -/

theorem avoids_inside {depth : Int} (inside : 0 < depth) {t : Text} (plain : ∀ c ∈ t, isSpecial c = false) :
    Avoids ':' (depth,false) t := by
  induction t with
  | nil => trivial
  | cons c rest ih =>
    obtain ⟨own,later⟩ := List.forall_mem_cons.mp plain
    have deep : (depth,false) ≠ outside := fun same => by
      have zero : depth = 0 := congrArg Prod.fst same
      omega
    refine ⟨fun _ => deep,?_⟩
    rw [scanStep_plain _ own]
    exact ih later

theorem avoids_str {depth : Int} {s : Text} (unquoted : '"' ∉ s) : Avoids ':' (depth,false) ('"'::s ++ ['"']) := by
  refine ⟨fun same => absurd same (by decide),?_⟩
  rw [show scanStep (depth,false) '"' = (depth,true) from rfl]
  induction s with
  | nil => exact ⟨fun same => absurd same (by decide),trivial⟩
  | cons c rest ih =>
    simp only [List.mem_cons,not_or] at unquoted
    refine ⟨fun _ => by simp [outside],?_⟩
    rw [show scanStep (depth,true) c = (depth,true) by simp [scanStep,Ne.symm unquoted.1]]
    exact ih unquoted.2

theorem avoids_callText {depth : Int} (positive : 0 ≤ depth) {name : Text} (clean : cleanAtom name = true)
    (named : Avoids ':' (depth,false) name) {parts : List Text} (pieces : ∀ t ∈ parts, Piece t)
    (args : Avoids ':' (depth + 1,false) (join ", ".toList parts)) : Avoids ':' (depth,false) (callText name parts) := by
  have scanned := ((piece_atom clean).steady depth positive).scans
  have inner := (piece_join pieces (by omega : 0 < depth + 1)).scans
  rw [callText,List.append_assoc,avoids_append,scanned]
  refine ⟨named,fun same => absurd same (by decide),?_⟩
  rw [show scanStep (depth,false) '(' = (depth + 1,false) from rfl]
  refine (avoids_append _ _ (join ", ".toList parts) [')']).mpr ⟨args,?_⟩
  rw [inner]
  exact ⟨fun same => absurd same (by decide),trivial⟩

mutual

theorem avoids_term {depth : Int} (inside : 0 < depth) : ∀ {t : Term}, t.clean = true → Avoids ':' (depth,false) t.print
  | .atom _,clean => avoids_inside inside (fun c member => ((cleanAtom_spec clean).2.1 c member).2.1)
  | .str _,clean => by
    simp only [Term.clean,cleanStr,Bool.and_eq_true,Bool.not_eq_true',List.contains_eq_mem,
      decide_eq_false_iff_not] at clean
    exact avoids_str clean.1
  | .call _ _,clean => by
    rw [Term.clean,Bool.and_eq_true] at clean
    have atom := (cleanName_spec clean.1).1
    exact avoids_callText (by omega) atom (avoids_inside inside (fun c member => ((cleanAtom_spec atom).2.1 c member).2.1))
      (pieces_print clean.2) (avoids_terms (by omega) clean.2)

theorem avoids_terms {depth : Int} (inside : 0 < depth) :
    ∀ {args : List Term}, cleanTerms args = true → Avoids ':' (depth,false) (join ", ".toList (printTerms args))
  | [],_ => trivial
  | [t],clean => by
    rw [cleanTerms,Bool.and_eq_true] at clean
    exact avoids_term inside clean.1
  | t::u::rest,clean => by
    rw [cleanTerms,Bool.and_eq_true] at clean
    have scanned := ((piece_print clean.1).steady depth (by omega)).scans
    have glue : Avoids ':' (depth,false) ", ".toList := avoids_of_not_mem _ (by decide)
    have plain : ∀ c ∈ ", ".toList, isSpecial c = false := by simp [isSpecial,isOpen,isClose]
    have later := avoids_terms inside clean.2
    simp only [printTerms,join] at later ⊢
    rw [avoids_append,avoids_append,scan_append,scanned,scan_plain _ plain]
    exact ⟨⟨avoids_term inside clean.1,glue⟩,later⟩

end

theorem avoids_test {t : Term} (clean : t.clean = true) (test : t.isTest = true) : Avoids ':' outside t.print := by
  cases t with
  | atom a =>
    simp only [Term.isTest,Bool.not_eq_true',List.contains_eq_mem,decide_eq_false_iff_not] at test
    exact avoids_of_not_mem outside test
  | str s =>
    simp only [Term.clean,cleanStr,Bool.and_eq_true,Bool.not_eq_true',List.contains_eq_mem,
      decide_eq_false_iff_not] at clean
    exact avoids_str clean.1
  | call name args =>
    simp only [Term.isTest,Bool.not_eq_true',List.contains_eq_mem,decide_eq_false_iff_not] at test
    rw [Term.clean,Bool.and_eq_true] at clean
    exact avoids_callText (Int.le_refl 0) (cleanName_spec clean.1).1 (avoids_of_not_mem _ test) (pieces_print clean.2)
      (avoids_terms (by omega) clean.2)

theorem reads_clause {test : Term} (clean : test.clean = true) (isTest : test.isTest = true) {result : Form}
    (wellFormed : result.wellFormed = true) {sub : Option Python.Readings}
    (read : Reads (Python.lineToSexpr result.header sub) result.sexp) :
    Reads (Python.clauseToSexpr (clauseText test result) sub) (.list [test.sexp,result.sexp]) := by
  obtain ⟨out,run,spelled⟩ := read
  have header := piece_header wellFormed
  have printed := piece_print clean
  have line : Python.strip (clauseText test result).tail = test.print ++ ':'::(' '::result.header) := by
    have pieces := (printed.glued glue_bind header).strip_eq
    have whole := (strip_space (test.print ++ ": ".toList ++ result.header)).trans pieces
    simpa [clauseText] using whole
  have split : splitFirstColonAtDepth0 (test.print ++ ':'::(' '::result.header)) = some (test.print,' '::result.header) :=
    splitFirstColon_eq_some.mpr ⟨rfl,avoids_test clean isTest,(printed.steady 0 (Int.le_refl 0)).scans⟩
  have value : Python.strip (' '::result.header) = result.header :=
    (strip_space result.header).trans header.strip_eq
  have done : Python.clauseToSexpr (clauseText test result) sub =
      .ok ('('::termToSexpr Python.strip test.print ++ ' '::out ++ [')']) := by
    rw [Python.clauseToSexpr,if_neg (by simp [clauseText]),line,split]
    dsimp only
    rw [value,printed.strip_eq,run]
    rfl
  have pair : Spells out (allTokens [result.sexp]) := by simpa [allTokens] using spelled
  have whole := spells_list (spells_cons (spells_term clean) pair)
  exact ⟨_,done,by simpa using whole⟩

/-! Whole programs. -/

def Form.block : Form → Option Python.Readings
  | .term _ => none
  | .define _ _ _ body => some (Python.blockReadings body.forest)
  | .letIn _ _ _ body => some (Python.blockReadings body.forest)
  | .cond _ clauses => some (Python.blockReadings clauses.forest)

theorem blockReadings_plant (form : Form) (header : Text) (later : Forest) :
    Python.blockReadings (form.plant header later) =
      ⟨Python.readBlock Python.lineToSexpr header form.block (Python.blockReadings later).body,
        Python.readBlock Python.clauseToSexpr header form.block (Python.blockReadings later).clauses⟩ := by
  cases form <;> rfl

theorem readsAll_cons {read : Text → Option Python.Readings → Except Python.Error Text} {line : Text}
    {sub : Option Python.Readings} {rest : Except Python.Error (List Text)} {s : Sexp} {sexps : List Sexp}
    (first : Reads (read line sub) s) (later : ReadsAll rest sexps) :
    ReadsAll (Python.readBlock read line sub rest) (s::sexps) := by
  obtain ⟨out,run,spelled⟩ := first
  obtain ⟨texts,runs,spells⟩ := later
  refine ⟨out::texts,?_,.cons spelled spells⟩
  rw [Python.readBlock,run,runs]
  rfl

mutual

theorem reads_form : ∀ {form : Form}, form.wellFormed = true → Reads (Python.lineToSexpr form.header form.block) form.sexp
  | .term _,wellFormed => by
    simp only [Form.wellFormed,Bool.and_eq_true] at wellFormed
    exact reads_term wellFormed.1 wellFormed.2
  | .define _ _ _ _,wellFormed => by
    simp only [Form.wellFormed,Bool.and_eq_true,List.all_eq_true] at wellFormed
    exact reads_define wellFormed.1.1.1 wellFormed.1.1.2 (reads_forms wellFormed.2)
  | .letIn _ _ _ _,wellFormed => by
    simp only [Form.wellFormed,Bool.and_eq_true] at wellFormed
    exact reads_let wellFormed.1.1.1 (bindings_spec (by simpa using wellFormed.1.1.2)) (reads_forms wellFormed.2)
  | .cond _ _,wellFormed => by
    simp only [Form.wellFormed,Bool.and_eq_true] at wellFormed
    exact reads_cond (reads_clauses wellFormed.2)

theorem reads_forms : ∀ {forms : Forms}, forms.wellFormed = true →
    ReadsAll (Python.blockReadings forms.forest).body forms.sexps
  | .nil,_ => ⟨[],rfl,.nil⟩
  | .cons form rest,wellFormed => by
    simp only [Forms.wellFormed,Bool.and_eq_true] at wellFormed
    rw [Forms.forest,blockReadings_plant]
    exact readsAll_cons (reads_form wellFormed.1) (reads_forms wellFormed.2)

theorem reads_clauses : ∀ {clauses : Clauses}, clauses.wellFormed = true →
    ReadsAll (Python.blockReadings clauses.forest).clauses clauses.sexps
  | .nil,_ => ⟨[],rfl,.nil⟩
  | .cons test result rest,wellFormed => by
    simp only [Clauses.wellFormed,Bool.and_eq_true] at wellFormed
    rw [Clauses.forest,blockReadings_plant]
    exact readsAll_cons (reads_clause wellFormed.1.1.1 wellFormed.1.1.2 wellFormed.1.2 (reads_form wellFormed.1.2))
      (reads_clauses wellFormed.2)

end

theorem print_head {t : Term} (clean : t.clean = true) : t.print.head? ≠ some '(' := by
  have atom {a : Text} (own : cleanAtom a = true) : a.head? ≠ some '(' :=
    fun head => absurd ((cleanAtom_spec own).2.1 '(' (List.mem_of_head? head)).2.1 (by decide)
  cases t with
  | atom a => exact atom clean
  | str s =>
    intro head
    cases head
  | call name args =>
    rw [Term.clean,Bool.and_eq_true] at clean
    have own := (cleanName_spec clean.1).1
    rw [Term.print,callText,List.append_assoc,List.head?_append_of_ne_nil _ (piece_atom own).nonempty]
    exact atom own

theorem checkNoAvoidableRawToplevel_plant {form : Form} (wellFormed : form.wellFormed = true) (later : Forest) :
    Python.checkNoAvoidableRawToplevel (form.plant form.header later) = Python.checkNoAvoidableRawToplevel later := by
  cases form with
  | term t =>
    simp only [Form.wellFormed,Bool.and_eq_true] at wellFormed
    have noParen : ¬ (Python.strip t.print).head? = some '(' := by
      rw [(piece_print wellFormed.1).strip_eq]
      exact print_head wellFormed.1
    have step : Python.checkNoAvoidableRawToplevel (.leaf t.print later) = Python.checkNoAvoidableRawToplevel later := by
      rw [Python.checkNoAvoidableRawToplevel]
      exact if_neg noParen
    exact step
  | define name params deeper body => rw [Form.plant,Python.checkNoAvoidableRawToplevel]
  | letIn kind bindings deeper body => rw [Form.plant,Python.checkNoAvoidableRawToplevel]
  | cond deeper clauses => rw [Form.plant,Python.checkNoAvoidableRawToplevel]

theorem checkNoAvoidableRawToplevel_forest : ∀ {forms : Forms}, forms.wellFormed = true →
    Python.checkNoAvoidableRawToplevel forms.forest = .ok ()
  | .nil,_ => rfl
  | .cons form rest,wellFormed => by
    simp only [Forms.wellFormed,Bool.and_eq_true] at wellFormed
    rw [Forms.forest,checkNoAvoidableRawToplevel_plant wellFormed.1]
    exact checkNoAvoidableRawToplevel_forest wellFormed.2

theorem buildBlockTree_lines {program : Forms} (wellFormed : program.wellFormed = true) (indent : Nat) :
    buildBlockTree (program.lines indent) 0 = (program.forest,[]) := by
  cases program with
  | nil => rfl
  | cons form rest =>
    have whole := @siblings_forms ((Forms.cons form rest).lines indent).length indent []
      (fun line head => by cases head) _ wellFormed (Nat.le_refl _)
    rw [List.append_nil] at whole
    exact whole

/-- A well-formed program, printed at any indentation with any deeper indentation for
its blocks, is read, and what comes out has the tokens of its s-expressions. -/
theorem shrubberyToScheme_print (program : Forms) (indent : Nat) (wellFormed : program.wellFormed = true) :
    ∃ out, Python.shrubberyToScheme (program.print indent) = .ok out ∧ lex out = allTokens program.sexps := by
  have pieces := pieces_lines wellFormed indent
  obtain ⟨texts,read,spells⟩ := reads_forms wellFormed
  refine ⟨join ['\n'] texts ++ ['\n'],?_,?_⟩
  · rw [Python.shrubberyToScheme,Forms.print,splitLines_print pieces,parseLines_indented pieces]
    refine bind_eq_ok.mpr ⟨_,rfl,?_⟩
    rw [buildBlockTree_lines wellFormed]
    refine bind_eq_ok.mpr ⟨_,checkNoAvoidableRawToplevel_forest wellFormed,bind_eq_ok.mpr ⟨_,read,rfl⟩⟩
  · have white : Char.isWhitespace '\n' = true := by decide
    have whole := ((spells_join spells white).append white spells_nil).lex_eq
    rwa [List.append_nil] at whole

/-- A `define` with a `let*` inside a clause and a named `let`. -/
def roll : Forms :=
  .cons (.define "roll".toList ["x".toList] 1
    (.cons (.cond 0
      (.cons (.call "=".toList [.atom "x".toList,.str "a, (b".toList])
        (.letIn .star [("y".toList,.call "g".toList [])] 3 (.cons (.term (.atom "y".toList)) .nil))
      (.cons (.atom "else".toList)
        (.letIn (.named "loop".toList) [("i".toList,.atom "0".toList)] 0 (.cons (.term (.atom ":k".toList)) .nil))
      .nil))) .nil)) .nil

theorem shrubberyToScheme_print_roll :
    roll.wellFormed = true ∧
      ∃ out, Python.shrubberyToScheme (roll.print 2) = .ok out ∧ lex out = allTokens roll.sexps := by
  have wellFormed : roll.wellFormed = true := by decide +kernel
  exact ⟨wellFormed,shrubberyToScheme_print roll 2 wellFormed⟩

/-- What `//` begins is a comment also inside an atom, and a clause whose result begins
with a reserved word is taken for a block. -/
theorem bracket_free_atoms_misread :
    "a//b".toList.all (fun c => !isOpen c && !isClose c) = true ∧
      Python.shrubberyToScheme
        (Forms.print 0 (.cons (.term (.call "f".toList [.atom "a//b".toList,.atom "c".toList])) .nil)) =
        .ok "f(a\n".toList ∧
      lex "f(a\n".toList ≠
        allTokens (Forms.sexps (.cons (.term (.call "f".toList [.atom "a//b".toList,.atom "c".toList])) .nil)) ∧
      Python.shrubberyToScheme
        (Forms.print 0 (.cons (.cond 0 (.cons (.atom "a".toList) (.term (.atom "cond1".toList)) .nil)) .nil)) =
        .error (.looksLikeBlockHeader "cond1".toList) := by
  decide +kernel

end WarpLoop.Shrubbery
